import ChartCompiler.Event.Offsets
import ChartCompiler.Proofs.Event.Scan
import Mathlib.Algebra.Group.Nat.Defs

/-!
# Cuts at byte offsets

A piece of text is cut out between two offsets. The offsets that a search gives are those of ASCII
characters, the bytes of which stand in no other character.

**Deviation**: the depth of brackets is a number of 32 bits, which wraps around. From `2 ^ 31` bytes
on, a search may find a separator that is nested; the text is still cut in front of it.

Results:

* `exists_slice_iff`: a piece can be cut out iff its ends are in order and fall on characters.
* `search_append`: a search stops at the end or in front of a separator, and in a short text it
  finds the first one that is not nested.
-/

namespace ChartCompiler.Selector.Offsets

/-! ## Bytes -/

@[simp]
theorem bytes_nil : bytes [] = [] := rfl

@[simp]
theorem bytes_append (a b : List Char) : bytes (a ++ b) = bytes a ++ bytes b :=
  List.flatMap_append

theorem bytes_cons (c : Char) (a : List Char) :
    bytes (c :: a) = String.utf8EncodeChar c ++ bytes a :=
  rfl

@[simp]
theorem size_nil : size [] = 0 := rfl

@[simp]
theorem size_append (a b : List Char) : size (a ++ b) = size a + size b := by simp [size]

@[simp]
theorem size_cons (c : Char) (a : List Char) : size (c :: a) = c.utf8Size + size a := by
  simp [size, bytes_cons]

theorem utf8ByteSize_ofList (text : List Char) : (String.ofList text).utf8ByteSize = size text := by
  induction text with
  | nil => rfl
  | cons c text ih =>
    rw [← List.singleton_append, String.ofList_append, String.utf8ByteSize_append, ih,
      ← String.singleton_eq_ofList, String.utf8ByteSize_singleton, size_append, size_cons,
      size_nil, Nat.add_zero]

theorem size_eq_zero {text : List Char} : size text = 0 ↔ text = [] := by
  cases text with
  | nil => simp
  | cons c text =>
    have := c.utf8Size_pos
    simp only [size_cons, reduceCtorEq, iff_false]
    omega

theorem size_trim_le (text : List Char) : size (Text.trim text) ≤ size text := by
  obtain ⟨l, r, -, -, h⟩ := Text.trim_eq_infix text
  have hsize := congrArg size h
  rw [size_append, size_append] at hsize
  omega

/-- Characters of a single byte. -/
def IsAscii (c : Char) : Prop := c.toNat < 128

instance (c : Char) : Decidable (IsAscii c) := inferInstanceAs (Decidable (c.toNat < 128))

/-- Only characters of a single byte. -/
def AllAscii (l : List Char) : Prop := ∀ c ∈ l, IsAscii c

instance (l : List Char) : Decidable (AllAscii l) := List.decidableBAll _ _

theorem IsAscii.utf8Size {c : Char} (h : IsAscii c) : c.utf8Size = 1 := by
  rw [Char.utf8Size_eq_one_iff, UInt32.le_iff_toNat_le]
  exact Nat.le_of_lt_succ h

theorem IsAscii.size_cons {c : Char} (h : IsAscii c) (a : List Char) :
    size (c :: a) = size a + 1 := by
  rw [Offsets.size_cons, h.utf8Size, Nat.add_comm]

theorem IsAscii.size_concat {c : Char} (h : IsAscii c) (a : List Char) :
    size (a ++ [c]) = size a + 1 := by
  rw [size_append, h.size_cons, size_nil]

theorem IsAscii.encode {c : Char} (h : IsAscii c) : String.utf8EncodeChar c = [c.toUInt8] :=
  String.utf8EncodeChar_eq_singleton h.utf8Size

theorem IsAscii.toNat_toUInt8 {c : Char} (h : IsAscii c) : c.toUInt8.toNat = c.toNat := by
  have hmod : c.toUInt8.toNat = c.toNat % 256 := UInt32.toNat_toUInt8 c.val
  rw [hmod, Nat.mod_eq_of_lt (Nat.lt_trans h (by decide))]

theorem IsAscii.toUInt8_inj {c d : Char} (hc : IsAscii c) (hd : IsAscii d) :
    c.toUInt8 = d.toUInt8 ↔ c = d := by
  rw [← UInt8.toNat_inj, hc.toNat_toUInt8, hd.toNat_toUInt8, Char.toNat_inj]

theorem IsAscii.mem_map_toUInt8 {c : Char} {l : List Char} (hc : IsAscii c)
    (hl : AllAscii l) : c.toUInt8 ∈ l.map Char.toUInt8 ↔ c ∈ l := by
  rw [List.mem_map]
  constructor
  · rintro ⟨d, hd, heq⟩
    rwa [← ((hl d hd).toUInt8_inj hc).1 heq]
  · exact fun h => ⟨c, h, rfl⟩

/-- The bytes of the other characters are none of ASCII characters. -/
theorem le_toNat_of_mem_encode {c : Char} (h : ¬IsAscii c) {b : UInt8}
    (hb : b ∈ String.utf8EncodeChar c) : 128 ≤ b.toNat := by
  have hlarge : ¬c.val.toNat ≤ 0x7f := fun hle => h (Nat.lt_succ_of_le hle)
  simp only [String.utf8EncodeChar, if_neg hlarge] at hb
  have hhigh (n k m : Nat) (hm : 0 < m) (hk : 128 ≤ k) (hsum : m + k ≤ 256) :
      128 ≤ (UInt8.ofNat (n % m + k)).toNat := by
    have := Nat.mod_lt n hm
    rw [UInt8.toNat_ofNat', Nat.mod_eq_of_lt (by omega)]
    omega
  split at hb
  · simp only [List.mem_cons, List.not_mem_nil, or_false] at hb
    rcases hb with rfl | rfl <;> exact hhigh _ _ _ (by decide) (by decide) (by decide)
  · split at hb
    · simp only [List.mem_cons, List.not_mem_nil, or_false] at hb
      rcases hb with rfl | rfl | rfl <;> exact hhigh _ _ _ (by decide) (by decide) (by decide)
    · simp only [List.mem_cons, List.not_mem_nil, or_false] at hb
      rcases hb with rfl | rfl | rfl | rfl <;> exact hhigh _ _ _ (by decide) (by decide) (by decide)

theorem toUInt8_not_mem_encode {c d : Char} (hc : ¬IsAscii c) (hd : IsAscii d) :
    d.toUInt8 ∉ String.utf8EncodeChar c := fun h => by
  have hle := le_toNat_of_mem_encode hc h
  rw [hd.toNat_toUInt8] at hle
  exact Nat.not_lt_of_le hle hd

theorem toUInt8_eq_iff_of_mem_encode {c d : Char} (hd : IsAscii d) {b : UInt8} {r : List UInt8}
    (hb : String.utf8EncodeChar c = b :: r) : b = d.toUInt8 ↔ c = d := by
  by_cases hc : IsAscii c
  · rw [hc.encode, List.cons.injEq] at hb
    rw [← hb.1, hc.toUInt8_inj hd]
  · constructor
    · rintro rfl
      exact absurd (hb ▸ List.mem_cons_self) (toUInt8_not_mem_encode hc hd)
    · rintro rfl
      exact absurd hd hc

theorem byteAt_append (p r : List UInt8) (b : UInt8) : byteAt (p ++ b :: r) p.length = .ok b := by
  simp [byteAt]

/-- The byte at the start of a character tells whether it is a given ASCII character. -/
theorem byteAt_size (front back : List Char) (c : Char) :
    ∃ b, byteAt (bytes (front ++ c :: back)) (size front) = .ok b ∧
      ∀ d, IsAscii d → (b = d.toUInt8 ↔ c = d) := by
  cases hb : String.utf8EncodeChar c with
  | nil =>
    have hlength := String.length_utf8EncodeChar c
    rw [hb] at hlength
    exact absurd hlength.symm (Nat.ne_of_gt c.utf8Size_pos)
  | cons b r =>
    refine ⟨b, ?_, fun d hd => toUInt8_eq_iff_of_mem_encode hd hb⟩
    rw [bytes_append, bytes_cons, hb]
    exact byteAt_append _ _ _

/-! ## Pieces -/

theorem cutAt?_append (a b : List Char) : cutAt? (a ++ b) (size a) = some (a, b) := by
  induction a with
  | nil =>
    rw [List.nil_append, size_nil]
    cases b <;> rfl
  | cons c a ih =>
    obtain ⟨n, hn⟩ := Nat.exists_eq_add_of_lt c.utf8Size_pos
    have hsize : size (c :: a) = size a + n + 1 := by
      rw [size_cons]
      omega
    have hrest : size a + n + 1 - c.utf8Size = size a := by omega
    rw [hsize, List.cons_append, cutAt?, if_neg (by omega), hrest, ih]
    rfl

theorem cutAt?_eq_some {text a b : List Char} {i : Nat} :
    cutAt? text i = some (a, b) ↔ text = a ++ b ∧ size a = i := by
  constructor
  · intro h
    induction text generalizing i a with
    | nil =>
      cases i with
      | zero =>
        cases h
        exact ⟨rfl, rfl⟩
      | succ i => cases h
    | cons c text ih =>
      cases i with
      | zero =>
        cases h
        exact ⟨rfl, rfl⟩
      | succ i =>
        rw [cutAt?] at h
        split at h
        · cases h
        · obtain ⟨r, hr, heq⟩ := Option.map_eq_some_iff.1 h
          cases heq
          obtain ⟨htext, hsize⟩ := ih hr
          refine ⟨congrArg (c :: ·) htext, ?_⟩
          rw [size_cons, hsize]
          omega
  · rintro ⟨rfl, rfl⟩
    exact cutAt?_append a b

theorem slice_eq_ok {text piece : List Char} {i j : Nat} : slice text i j = .ok piece ↔
    ∃ a c, text = a ++ piece ++ c ∧ size a = i ∧ i + size piece = j := by
  constructor
  · intro h
    unfold slice at h
    split at h
    · cases h
    next hij =>
      split at h
      next piece' c hcut =>
        cases h
        obtain ⟨⟨a, b⟩, hfront, hback⟩ := Option.bind_eq_some_iff.1 hcut
        obtain ⟨rfl, hi⟩ := cutAt?_eq_some.1 hfront
        obtain ⟨rfl, hj⟩ := cutAt?_eq_some.1 hback
        exact ⟨a, c, (List.append_assoc _ _ _).symm, hi, by omega⟩
      next => cases h
  · rintro ⟨a, c, rfl, rfl, rfl⟩
    rw [slice, if_neg (by omega), List.append_assoc, cutAt?_append, Option.bind_some,
      Nat.add_sub_cancel_left, cutAt?_append]

/-- A piece can be cut out iff its ends are in order and fall on characters. -/
theorem exists_slice_iff {text : List Char} {i j : Nat} :
    (∃ piece, slice text i j = .ok piece) ↔ i ≤ j ∧
      String.Pos.Raw.IsValid (String.ofList text) ⟨i⟩ ∧
      String.Pos.Raw.IsValid (String.ofList text) ⟨j⟩ := by
  have hvalid (i : Nat) : String.Pos.Raw.IsValid (String.ofList text) ⟨i⟩ ↔
      ∃ a b, text = a ++ b ∧ size a = i := by
    rw [String.Pos.Raw.isValid_ofList]
    constructor
    · rintro ⟨n, hn⟩
      refine ⟨text.take n, text.drop n, (List.take_append_drop _ _).symm, ?_⟩
      rw [← utf8ByteSize_ofList]
      exact hn.symm
    · rintro ⟨a, b, rfl, rfl⟩
      exact ⟨a.length, by rw [List.take_left, utf8ByteSize_ofList]⟩
  simp only [slice_eq_ok, hvalid]
  constructor
  · rintro ⟨piece, a, c, htext, rfl, rfl⟩
    refine ⟨by omega, ⟨a, piece ++ c, by rw [htext, List.append_assoc], rfl⟩,
      ⟨a ++ piece, c, htext, size_append _ _⟩⟩
  · rintro ⟨hij, ⟨a, b, htext, rfl⟩, ⟨a', b', htext', rfl⟩⟩
    -- The shorter of the two fronts starts the longer one.
    rcases List.prefix_or_prefix_of_prefix ⟨b, htext.symm⟩ ⟨b', htext'.symm⟩ with
      ⟨piece, rfl⟩ | ⟨piece, rfl⟩
    · exact ⟨piece, a, b', htext', rfl, (size_append _ _).symm⟩
    · rw [size_append] at hij ⊢
      obtain rfl : piece = [] := size_eq_zero.1 (by omega)
      exact ⟨[], a', b', by rw [htext', List.append_nil], by simp, by simp⟩

theorem slice_append (a piece c : List Char) :
    slice (a ++ piece ++ c) (size a) (size (a ++ piece)) = .ok piece :=
  slice_eq_ok.2 ⟨a, c, rfl, rfl, (size_append _ _).symm⟩

/-! ## Searches -/

section Find

variable {checked : Bool} {stop : UInt8} {opens closes : List UInt8}

theorem find_cons (p r : List UInt8) (b : UInt8) (rounds : Nat) (depth : Int32) :
    find checked stop opens closes (p ++ b :: r) (rounds + 1) depth p.length =
      if depth = 0 ∧ b = stop then .ok p.length
      else stepByte checked opens closes depth b >>= fun depth =>
        find checked stop opens closes (p ++ b :: r) rounds depth (p.length + 1) := by
  rw [find, if_pos (by simp), byteAt_append]
  rfl

/-- Bytes that are neither the separator nor a bracket are passed over. -/
theorem find_skip (q : List UInt8) (h : ∀ b ∈ q, b ≠ stop ∧ b ∉ opens ∧ b ∉ closes)
    (p r : List UInt8) (rounds : Nat) (depth : Int32) :
    find checked stop opens closes (p ++ (q ++ r)) (q.length + rounds) depth p.length =
      find checked stop opens closes (p ++ (q ++ r)) rounds depth (p.length + q.length) := by
  induction q generalizing p with
  | nil => simp
  | cons b q ih =>
    obtain ⟨hstop, hopens, hcloses⟩ := h b List.mem_cons_self
    have hstep : stepByte checked opens closes depth b = .ok depth := by
      rw [stepByte, if_neg hcloses, if_neg hopens]
    have hrest := ih (fun d hd => h d (List.mem_cons_of_mem _ hd)) (p ++ [b])
    rw [List.append_assoc, List.singleton_append, List.length_append, List.length_singleton]
      at hrest
    rw [List.length_cons, Nat.add_right_comm, List.cons_append, find_cons,
      if_neg fun hc => hstop hc.2, hstep]
    exact hrest.trans (by rw [Nat.add_assoc, Nat.add_comm 1])

end Find

theorem addDepth_ofInt {checked : Bool} {depth k : Int}
    (h : checked = true → depth.natAbs < 2 ^ 31 ∧ k.natAbs < 2 ^ 31 ∧ (depth + k).natAbs < 2 ^ 31) :
    addDepth checked (Int32.ofInt depth) (Int32.ofInt k) = .ok (Int32.ofInt (depth + k)) := by
  rw [addDepth, ← Int32.ofInt_add, if_neg]
  rintro ⟨hchecked, hne⟩
  obtain ⟨hdepth, hk, hsum⟩ := h hchecked
  refine hne ?_
  rw [Int32.toInt_ofInt_of_le (by omega) (by omega), Int32.toInt_ofInt_of_le (by omega) (by omega),
    Int32.toInt_ofInt_of_le (by omega) (by omega)]

theorem ofInt_eq_zero_iff {depth : Int} (h : depth.natAbs < 2 ^ 31) :
    Int32.ofInt depth = 0 ↔ depth = 0 := by
  rw [← Int32.toInt_inj, Int32.toInt_ofInt_of_le (by omega) (by omega)]
  rfl

section Search

variable {checked : Bool} {stop : Char} {opens closes : List Char}

theorem natAbs_stepDepth_le (opens closes : List Char) (depth : Int) (c : Char) :
    (stepDepth opens closes depth c).natAbs ≤ depth.natAbs + 1 := by
  unfold stepDepth
  split
  · omega
  · split <;> omega

theorem stepByte_toUInt8 (hopens : AllAscii opens) (hcloses : AllAscii closes) {c : Char}
    (hc : IsAscii c) {depth : Int} (h : checked = true → depth.natAbs + 1 < 2 ^ 31) :
    stepByte checked (opens.map Char.toUInt8) (closes.map Char.toUInt8) (Int32.ofInt depth)
      c.toUInt8 = .ok (Int32.ofInt (stepDepth opens closes depth c)) := by
  have hback : (-1 : Int32) = Int32.ofInt (-1) := rfl
  have hon : (1 : Int32) = Int32.ofInt 1 := rfl
  unfold stepByte stepDepth
  simp only [hc.mem_map_toUInt8 hopens, hc.mem_map_toUInt8 hcloses]
  split
  · rw [hback, addDepth_ofInt, Int.sub_eq_add_neg]
    intro hchecked
    have := h hchecked
    omega
  · split
    · rw [hon, addDepth_ofInt]
      intro hchecked
      have := h hchecked
      omega
    · rfl

theorem find_ascii (hstop : IsAscii stop) (hopens : AllAscii opens) (hcloses : AllAscii closes)
    {c : Char} (hc : IsAscii c) (front back : List Char) (rounds : Nat) {depth : Int}
    (h : checked = true → depth.natAbs + 1 < 2 ^ 31) :
    find checked stop.toUInt8 (opens.map Char.toUInt8) (closes.map Char.toUInt8)
        (bytes (front ++ c :: back)) (rounds + 1) (Int32.ofInt depth) (size front) =
      if Int32.ofInt depth = 0 ∧ c = stop then .ok (size front)
      else find checked stop.toUInt8 (opens.map Char.toUInt8) (closes.map Char.toUInt8)
        (bytes (front ++ c :: back)) rounds (Int32.ofInt (stepDepth opens closes depth c))
        (size (front ++ [c])) := by
  have hbytes : bytes (front ++ c :: back) = bytes front ++ c.toUInt8 :: bytes back := by
    rw [bytes_append, bytes_cons, hc.encode, List.singleton_append]
  have hsize : size (front ++ [c]) = (bytes front).length + 1 := hc.size_concat front
  rw [hbytes, hsize, size, find_cons, stepByte_toUInt8 hopens hcloses hc h]
  simp only [hc.toUInt8_inj hstop]
  rfl

theorem find_other (hstop : IsAscii stop) (hopens : AllAscii opens) (hcloses : AllAscii closes)
    {c : Char} (hc : ¬IsAscii c) (front back : List Char) (rounds : Nat) (depth : Int32) :
    find checked stop.toUInt8 (opens.map Char.toUInt8) (closes.map Char.toUInt8)
        (bytes (front ++ c :: back)) (c.utf8Size + rounds) depth (size front) =
      find checked stop.toUInt8 (opens.map Char.toUInt8) (closes.map Char.toUInt8)
        (bytes (front ++ c :: back)) rounds depth (size (front ++ [c])) := by
  have hplain : ∀ b ∈ String.utf8EncodeChar c, b ≠ stop.toUInt8 ∧
      b ∉ opens.map Char.toUInt8 ∧ b ∉ closes.map Char.toUInt8 := by
    have hnone {l : List Char} (hl : AllAscii l) {b : UInt8}
        (hb : b ∈ String.utf8EncodeChar c) : b ∉ l.map Char.toUInt8 := by
      intro hmem
      obtain ⟨d, hd, rfl⟩ := List.mem_map.1 hmem
      exact toUInt8_not_mem_encode hc (hl d hd) hb
    intro b hb
    refine ⟨?_, hnone hopens hb, hnone hcloses hb⟩
    rintro rfl
    exact toUInt8_not_mem_encode hc hstop hb
  have hsize : size (front ++ [c]) = (bytes front).length + (String.utf8EncodeChar c).length := by
    simp [size, bytes_cons]
  rw [hsize, bytes_append, bytes_cons, ← String.length_utf8EncodeChar]
  exact find_skip _ hplain _ _ _ _

/-- What a search in `back` may find: nothing, or what stands in front of a separator and behind
it. In a short text the separator is the first one that is not nested. -/
structure Found (stop : Char) (opens closes : List Char) (short : Prop) (depth : Int)
    (back : List Char) (found : Option (List Char × List Char)) : Prop where
  split : ∀ r ∈ found, back = r.1 ++ stop :: r.2
  eq_breakAt : short → found = breakAt stop opens closes depth back

/-- The offset of what is found behind `front`. -/
def offsetOf (front back : List Char) (found : Option (List Char × List Char)) : Nat :=
  found.elim (size (front ++ back)) fun r => size (front ++ r.1)

theorem offsetOf_none (front back : List Char) :
    offsetOf front back none = size (front ++ back) := rfl

theorem offsetOf_some (front back a rest : List Char) :
    offsetOf front back (some (a, rest)) = size (front ++ a) := rfl

theorem Found.cons {short : Prop} {depth : Int} {c : Char} {back : List Char}
    {found : Option (List Char × List Char)}
    (h : Found stop opens closes short (stepDepth opens closes depth c) back found)
    (hc : short → ¬(depth = 0 ∧ c = stop)) :
    Found stop opens closes short depth (c :: back) (found.map fun r => (c :: r.1, r.2)) where
  split := by
    intro r hr
    obtain ⟨r', hr', rfl⟩ := Option.map_eq_some_iff.1 hr
    exact congrArg (c :: ·) (h.split r' hr')
  eq_breakAt hshort := by rw [h.eq_breakAt hshort, breakAt, if_neg (hc hshort)]

theorem offsetOf_cons (front back : List Char) (c : Char)
    (found : Option (List Char × List Char)) :
    offsetOf front (c :: back) (found.map fun r => (c :: r.1, r.2)) =
      offsetOf (front ++ [c]) back found := by
  cases found <;> simp [offsetOf]

/-- The search goes on behind `front`, with a depth that is at most the number of bytes passed. -/
theorem find_append {short : Prop} (hchecked : checked = true → short) (hstop : IsAscii stop)
    (hopens : AllAscii opens) (hcloses : AllAscii closes) (front back : List Char) (rounds : Nat)
    (depth : Int) (hrounds : size back < rounds)
    (hdepth : depth.natAbs ≤ size front) (hshort : short → size (front ++ back) < 2 ^ 31) :
    ∃ found, Found stop opens closes short depth back found ∧
      find checked stop.toUInt8 (opens.map Char.toUInt8) (closes.map Char.toUInt8)
        (bytes (front ++ back)) rounds (Int32.ofInt depth) (size front) =
        .ok (offsetOf front back found) := by
  induction back generalizing front rounds depth with
  | nil =>
    obtain ⟨rounds, rfl⟩ := Nat.exists_eq_add_of_lt hrounds
    refine ⟨none, ⟨fun r hr => (nomatch hr), fun _ => rfl⟩, ?_⟩
    rw [find, if_neg (by simp [size])]
    simp [offsetOf]
  | cons c back ih =>
    have hassoc : front ++ c :: back = (front ++ [c]) ++ back := by simp
    have hfront : size (front ++ [c]) = size front + c.utf8Size := by simp
    have hsize : size (front ++ c :: back) = size front + c.utf8Size + size back := by
      rw [hassoc, size_append, hfront]
    rw [size_cons] at hrounds
    by_cases hascii : IsAscii c
    · have hone := hascii.utf8Size
      have hbound : short → depth.natAbs + 1 < 2 ^ 31 := fun h => by
        have := hshort h
        omega
      obtain ⟨rounds, rfl⟩ : ∃ n, rounds = n + 1 := ⟨rounds - 1, by omega⟩
      rw [find_ascii hstop hopens hcloses hascii front back rounds fun h => hbound (hchecked h)]
      by_cases hfirst : Int32.ofInt depth = 0 ∧ c = stop
      · obtain ⟨hzero, rfl⟩ := hfirst
        rw [if_pos ⟨hzero, rfl⟩]
        refine ⟨some ([], back), ⟨?_, fun h => ?_⟩, by simp [offsetOf]⟩
        · rintro r ⟨⟩
          rfl
        · rw [(ofInt_eq_zero_iff (Nat.lt_of_succ_lt (hbound h))).1 hzero, breakAt_stop]
      · have hstep := natAbs_stepDepth_le opens closes depth c
        obtain ⟨found, hfound, hfind⟩ := ih (front ++ [c]) rounds
          (stepDepth opens closes depth c) (by omega) (by omega) (by rwa [← hassoc])
        rw [← hassoc] at hfind
        rw [if_neg hfirst, hfind, ← offsetOf_cons]
        exact ⟨_, hfound.cons fun h hc =>
          hfirst ⟨(ofInt_eq_zero_iff (Nat.lt_of_succ_lt (hbound h))).2 hc.1, hc.2⟩, rfl⟩
    · have hstep : stepDepth opens closes depth c = depth := by
        rw [stepDepth, if_neg fun h => hascii (hcloses c h), if_neg fun h => hascii (hopens c h)]
      obtain ⟨rounds, rfl⟩ : ∃ n, rounds = c.utf8Size + n := ⟨rounds - c.utf8Size, by omega⟩
      obtain ⟨found, hfound, hfind⟩ := ih (front ++ [c]) rounds depth (by omega) (by omega)
        (by rwa [← hassoc])
      rw [← hassoc] at hfind
      rw [← hstep] at hfound
      rw [find_other hstop hopens hcloses hascii, hfind, ← offsetOf_cons]
      refine ⟨_, hfound.cons fun _ hc => hascii ?_, rfl⟩
      rwa [hc.2]

/-- The rounds suffice for a text, and if it is to be short, so do depths of 32 bits. -/
structure Fits (rounds : Nat) (short : Prop) (text : List Char) : Prop where
  rounds : size text < rounds
  short : short → size text < 2 ^ 31

theorem Fits.of_le {rounds : Nat} {short : Prop} {text piece : List Char}
    (h : Fits rounds short text) (hle : size piece ≤ size text) : Fits rounds short piece :=
  ⟨Nat.lt_of_le_of_lt hle h.rounds, fun hs => Nat.lt_of_le_of_lt hle (h.short hs)⟩

theorem search_append {short : Prop} (hchecked : checked = true → short) (stop : Char)
    (opens closes front back : List Char) {rounds : Nat} (h : Fits rounds short (front ++ back))
    (hstop : IsAscii stop) (hopens : AllAscii opens) (hcloses : AllAscii closes) :
    ∃ found, Found stop opens closes short 0 back found ∧
      search checked rounds stop opens closes (front ++ back) (size front) =
        .ok (offsetOf front back found) := by
  have hrounds := h.rounds
  rw [size_append] at hrounds
  exact find_append hchecked hstop hopens hcloses front back rounds 0 (by omega) (Nat.zero_le _)
    h.short

/-- A search without brackets finds the same from further behind. -/
theorem search_plain {short : Prop} (hchecked : checked = true → short) (stop : Char)
    (front passed back : List Char) {rounds : Nat}
    (h : Fits rounds short (front ++ (passed ++ back))) (hstop : IsAscii stop)
    (hpassed : stop ∉ passed) :
    ∃ found, Found stop [] [] short 0 (passed ++ back) found ∧
      search checked rounds stop [] [] (front ++ (passed ++ back)) (size (front ++ passed)) =
        .ok (offsetOf front (passed ++ back) found) := by
  induction passed generalizing front with
  | nil =>
    rw [List.append_nil]
    exact search_append hchecked stop [] [] front back h hstop (List.forall_mem_nil _)
      (List.forall_mem_nil _)
  | cons c passed ih =>
    rw [List.mem_cons, not_or] at hpassed
    have hassoc : front ++ (c :: passed ++ back) = front ++ [c] ++ (passed ++ back) := by simp
    obtain ⟨found, hfound, hsearch⟩ := ih (front ++ [c]) (by rwa [← hassoc]) hpassed.2
    rw [← hassoc, List.append_assoc, List.singleton_append, ← offsetOf_cons] at hsearch
    exact ⟨_, Found.cons hfound fun _ hc => hpassed.1 hc.2.symm, hsearch⟩

end Search

end ChartCompiler.Selector.Offsets
