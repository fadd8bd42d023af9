import ChartCompiler.Output.Dataset
import ChartCompiler.Proofs.Json.Records

/-!
# Datasets in text

A dataset is read back from its text exactly if it is not nested deeper than the reader goes, each
double in it is read back from its own text, and no null stands where a value is set. Everything
else survives: the type of a step in front of its properties, a bin step whose parameters stand
beside its other properties, an extent that is a pair of numbers or a signal, and properties that
are left out when they are unset.

Results:

* `Dataset.Plain`: what a dataset must not hold, as it has no text of its own.
* `Dataset.ofText?_encode_iff`: which datasets are read back.
-/

namespace ChartCompiler

open Json (KeptBy TakesBack fieldOr)

variable {g : Binary64 → Option Binary64}

/-! ## Bin steps -/

namespace SignalRef

@[simp] theorem replace_encode (r : SignalRef) : r.encode.replace g = r.encode := by
  simp [encode, Json.replace, Json.replaceMembers]

@[simp] theorem keptBy_encode (r : SignalRef) : r.encode.KeptBy g := by
  simp [encode, Json.keptBy_obj]

@[simp] theorem decode_encode (r : SignalRef) : decode r.encode = some r := by
  rfl

/-- An array of numbers is no reference. -/
theorem decode_arr_of_not_string {j : Json} (h : Json.asString j = none) (rest : List Json) :
    decode (.arr (j :: rest)) = none := by
  have hrun :
      (Json.Record.required "signal" Json.asString).run (.positional (j :: rest)) = none := by
    change (Json.asString j).bind _ = none
    rw [h]
    rfl
  rw [decode, Json.Record.read, StateT.run_bind, hrun]
  rfl

end SignalRef

theorem BinExtent.takesBack (e : BinExtent) : TakesBack g decode encode e := by
  cases e with
  | values low high =>
    have htext : ∀ x, Json.asString (Json.ofOption (g x) .float) = none := by
      intro x
      cases g x <;> rfl
    simp only [TakesBack, encode, Json.replace, Json.replaceItems, decode, Json.orElse,
      SignalRef.decode_arr_of_not_string (htext low), Json.pairOf, Json.keptBy_arr]
    cases hlow : g low <;> cases hhigh : g high <;>
      simp [Json.asNumber, Json.ofOption, Json.number?, hlow, hhigh]
  | signal ref =>
    have hpair : Json.pairOf Json.asNumber ref.encode = none := rfl
    simp [TakesBack, decode, encode, Json.orElse, hpair]

open Json.Record in
theorem BinParams.run_fields_iff {members : List (String × Json)} {p : BinParams} :
    (∃ rest, BinParams.fields.run (.named members) = some (p, rest)) ↔
      fieldOr none (Json.nullable Json.asWord) (members.lookup "maxbins") = some p.maxbins ∧
      fieldOr none (Json.nullable Json.asNumber) (members.lookup "step") = some p.step ∧
      fieldOr none (Json.nullable (Json.listOf Json.asNumber)) (members.lookup "steps") =
        some p.steps ∧
      fieldOr none (Json.nullable Json.asNumber) (members.lookup "minstep") = some p.minstep ∧
      fieldOr none (Json.nullable (Json.listOf Json.asNumber)) (members.lookup "divide") =
        some p.divide ∧
      fieldOr none (Json.nullable (Json.pairOf Json.asNumber)) (members.lookup "extent") =
        some p.extent ∧
      fieldOr none (Json.nullable Json.asNumber) (members.lookup "base") = some p.base ∧
      fieldOr none (Json.nullable Json.asBool) (members.lookup "nice") = some p.nice := by
  simp only [BinParams.fields, run_bind members (run_optionalNamed members _ _), StateT.run_pure,
    Option.pure_def, Option.bind_eq_some_iff, Option.some.injEq, Prod.mk.injEq]
  constructor
  · rintro ⟨_, _, h1, _, h2, _, h3, _, h4, _, h5, _, h6, _, h7, _, h8, rfl, rfl⟩
    exact ⟨h1, h2, h3, h4, h5, h6, h7, h8⟩
  · rintro ⟨h1, h2, h3, h4, h5, h6, h7, h8⟩
    exact ⟨_, _, h1, _, h2, _, h3, _, h4, _, h5, _, h6, _, h7, _, h8, rfl, rfl⟩

namespace BinStep

open Json.Record in
theorem decode_obj_iff {members : List (String × Json)} {s : BinStep} :
    decode (.obj members) = some s ↔
      (members.lookup "field").bind Json.asString = some s.field ∧
      (members.lookup "as").bind (Json.pairOf Json.asString) = some (s.start, s.stop) ∧
      fieldOr none (Json.nullable Json.asString) (members.lookup "signal") = some s.signal ∧
      fieldOr none (Json.nullable BinExtent.decode) (members.lookup "extent") = some s.extent ∧
      ∃ rest, BinParams.fields.run (.named (Json.dropMember "extent" members)) =
        some (s.params, rest) := by
  simp only [decode, readNamed, run_bind members (run_required members _ _),
    run_bind members (run_optional members _ _), StateT.run_bind]
  rw [Option.map_eq_some_iff]
  constructor
  · rintro ⟨⟨_, rest⟩, h, rfl⟩
    obtain ⟨field, hfield, h⟩ := Option.bind_eq_some_iff.1 h
    obtain ⟨ends, hends, h⟩ := Option.bind_eq_some_iff.1 h
    obtain ⟨signal, hsignal, h⟩ := Option.bind_eq_some_iff.1 h
    obtain ⟨extent, hextent, h⟩ := Option.bind_eq_some_iff.1 h
    obtain ⟨⟨params, _⟩, hparams, heq⟩ := Option.bind_eq_some_iff.1 h
    cases heq
    exact ⟨hfield, hends, hsignal, hextent, _, hparams⟩
  · rintro ⟨hfield, hends, hsignal, hextent, rest, hparams⟩
    refine ⟨(s, rest), ?_, rfl⟩
    change StateT.run BinParams.fields _ = _ at hparams
    simp only [hfield, hends, hsignal, hextent, Option.bind_some]
    change (StateT.run BinParams.fields _).bind _ = _
    rw [hparams]
    rfl

/-- The parameters have no extent of their own, as it would stand in the place of the step's, and
no more bins than 32 bits hold. -/
structure Plain (s : BinStep) : Prop where
  extent : s.params.extent = none
  maxbins : ∀ n ∈ s.params.maxbins, n < 4294967296

/-- The step may be read from any members that hold those that were written for it. -/
theorem decode_obj_replace_iff {s : BinStep} (h : s.Plain) {members : List (String × Json)}
    (hmembers : ∀ key, key ≠ "type" →
      members.lookup key = Json.member key (s.members.map (Json.replaceMember g))) :
    decode (.obj members) = some s ↔ (Json.record s.members).KeptBy g := by
  have hmaxbins : ∀ n ∈ s.params.maxbins, TakesBack g Json.asWord (fun n => .int n) n :=
    fun n hn => Json.takesBack_word (h.maxbins n hn)
  have hnumbers : ∀ xs : List Binary64,
      TakesBack g (Json.listOf Json.asNumber) (fun xs => .arr (xs.map .float)) xs :=
    fun xs => Json.takesBack_list fun x _ => Json.takesBack_number x
  rw [Json.keptBy_record, decode_obj_iff, BinParams.run_fields_iff]
  simp only [Json.lookup_dropMember, Json.lookup_dropMember_self, hmembers, BinStep.members,
    BinParams.members, List.map_cons, List.map_nil, Json.replaceMember_always,
    Json.replaceMember_whenSet, List.cons_append, List.nil_append, h.extent,
    Json.member_always, Json.member_always_of_ne, Json.member_whenSet,
    Json.member_whenSet_of_ne, ne_eq, String.reduceEq, not_false_eq_true, Json.member_nil,
    Option.or_none, Option.none_or, Option.map_none, Option.bind_some,
    (Json.takesBack_string (g := g) _).iff, (Json.takesBack_pair (Json.takesBack_string s.start)
      (Json.takesBack_string s.stop)).iff,
    Json.fieldOr_nullable_iff rfl fun s _ => Json.takesBack_string (g := g) s,
    Json.fieldOr_nullable_iff rfl fun e _ => BinExtent.takesBack (g := g) e,
    Json.fieldOr_nullable_iff rfl hmaxbins,
    Json.fieldOr_nullable_iff rfl fun x _ => Json.takesBack_number (g := g) x,
    Json.fieldOr_nullable_iff rfl fun xs _ => hnumbers xs,
    Json.fieldOr_nullable_iff rfl fun b _ => Json.takesBack_bool (g := g) b]
  simp only [fieldOr, List.forall_mem_cons, List.not_mem_nil, false_imp_iff, implies_true,
    Json.memberKeptBy_always, Json.memberKeptBy_whenSet, Option.not_mem_none, and_true, true_and]
  -- the extent is written last, and read before the parameters
  tauto

end BinStep

/-! ## Pipelines -/

namespace OutputTransform

/-- What a step must not hold. -/
def Plain : OutputTransform → Prop
  | .bin step => step.Plain
  | _ => True

/-- A step that holds no doubles is taken back as it is. -/
theorem takesBack_of_replace {t : OutputTransform} (hreplace : t.encode.replace g = t.encode)
    (hdecode : decode t.encode = some t) : TakesBack g decode encode t :=
  iff_of_true (by rw [hreplace, hdecode]) (Json.replace_eq_self_iff.1 hreplace)

theorem takesBack_bin {step : BinStep} (h : step.Plain) :
    TakesBack g decode encode (.bin step) := by
  have hrecord : ((bin step).encode.replace g) = .obj (("type", .str "bin") ::
      (step.members.map (Json.replaceMember g)).filterMap id) := by
    rw [encode, Json.replace_record]
    rfl
  have hbody : decode ((bin step).encode.replace g) =
      (BinStep.decode (.obj (Json.dropMember "type" (("type", .str "bin") ::
        (step.members.map (Json.replaceMember g)).filterMap id)))).map .bin := by
    rw [hrecord]
    rfl
  have hlookup : ∀ key, key ≠ "type" → (Json.dropMember "type" (("type", .str "bin") ::
      (step.members.map (Json.replaceMember g)).filterMap id)).lookup key =
        Json.member key (step.members.map (Json.replaceMember g)) := by
    intro key hkey
    rw [Json.lookup_dropMember hkey, List.lookup_cons, beq_eq_false_iff_ne.2 hkey]
    rfl
  have hstep := BinStep.decode_obj_replace_iff h hlookup
  have hkept : (bin step).encode.KeptBy g ↔ (Json.record step.members).KeptBy g := by
    rw [encode, Json.keptBy_record, Json.keptBy_record, List.forall_mem_cons]
    simp
  rw [TakesBack, hbody, hkept, ← hstep, Option.map_eq_some_iff]
  simp

open Json.Record in
theorem takesBack {t : OutputTransform} (h : t.Plain) : TakesBack g decode encode t := by
  cases t with
  | bin step => exact takesBack_bin h
  | aggregate groupby ops fields outputs =>
    refine takesBack_of_replace ?_ ?_
    · simp [encode, Json.replace, Json.replaceMembers]
    · have hread : ∀ texts, Json.listOf Json.asString (Json.strings texts) = some texts := by
        intro texts
        have h := (Json.takesBack_strings (g := g) texts).iff.2 (Json.keptBy_strings texts)
        rwa [Json.replace_strings] at h
      have hbody : decode (aggregate groupby ops fields outputs).encode =
          decodeBody "aggregate" (.obj
            [("groupby", Json.strings groupby), ("ops", Json.strings ops),
             ("fields", Json.strings fields), ("as", Json.strings outputs)]) := rfl
      rw [hbody]
      simp [decodeBody, Json.Record.read, run_bind _ (run_required _ _ _), run_required,
        List.lookup_cons, hread]
  | extent | formula | filter | identifier =>
    refine takesBack_of_replace ?_ rfl
    simp [encode, Json.replace, Json.replaceMembers]

theorem sound_encode_bin {step : BinStep} (h : step.Plain) : (bin step).encode.Sound := by
  have hstr := Json.Sound.str
  have hnumbers : ∀ xs : List Binary64, (Json.arr (xs.map .float)).Sound := by
    intro xs
    refine .arr fun j hj => ?_
    obtain ⟨x, -, rfl⟩ := List.mem_map.1 hj
    exact .float x
  have hends : (Json.arr [.str step.start, .str step.stop]).Sound := by
    refine .arr ?_
    simp [hstr]
  have hmaxbins : ∀ n ∈ step.params.maxbins, (Json.int n).Sound := by
    intro n hn
    have hword : 4294967296 ≤ Decimal.wordMax := by decide
    have hlt := h.maxbins n hn
    exact .int (by omega) (by omega)
  have hextent : ∀ e ∈ step.extent, (BinExtent.encode e).Sound := by
    intro e he
    cases e with
    | values low high =>
      refine .arr ?_
      simp [Json.Sound.float]
    | signal ref =>
      refine .obj (by simp) ?_
      simp [hstr]
  have hunset : ∀ key (encode : Binary64 × Binary64 → Json),
      Json.whenSet key none encode = none := fun _ _ => rfl
  rw [encode, BinStep.members, BinParams.members, h.extent, hunset]
  refine Json.sound_record ["type", "field", "as", "signal", "maxbins", "step", "steps", "minstep",
    "divide", "", "base", "nice", "extent"] (by simp [Json.keyed_none]) (by decide) ?_
  simp only [List.cons_append, List.nil_append, List.forall_mem_cons, Json.memberSound_always,
    Json.memberSound_whenSet]
  exact ⟨hstr _, hstr _, hends, fun s _ => hstr s, hmaxbins, fun x _ => .float x,
    fun xs _ => hnumbers xs, fun x _ => .float x, fun xs _ => hnumbers xs,
    by simp [Json.MemberSound], fun x _ => .float x, fun b _ => .bool b, hextent, by simp⟩

theorem sound_encode {t : OutputTransform} (h : t.Plain) : t.encode.Sound := by
  have hstr := Json.Sound.str
  cases t with
  | bin step => exact sound_encode_bin h
  | aggregate groupby ops fields outputs =>
    refine .obj (by simp) ?_
    simp only [List.forall_mem_cons]
    exact ⟨hstr _, Json.sound_strings _, Json.sound_strings _, Json.sound_strings _,
      Json.sound_strings _, by simp⟩
  | extent | formula | filter | identifier =>
    refine .obj (by simp) ?_
    simp [hstr]

end OutputTransform

/-! ## Datasets -/

namespace Dataset

open Json.Record in
theorem decode_obj_iff {members : List (String × Json)} {d : Dataset} :
    decode (.obj members) = some d ↔
      (members.lookup "name").bind Json.asString = some d.name ∧
      fieldOr none (Json.nullable Json.asString) (members.lookup "source") = some d.source ∧
      fieldOr none (Json.nullable Json.asAny) (members.lookup "values") = some d.values ∧
      fieldOr none (Json.nullable Json.asString) (members.lookup "url") = some d.url ∧
      fieldOr none (Json.nullable Json.asAny) (members.lookup "format") = some d.format ∧
      fieldOr [] (Json.listOf OutputTransform.decode) (members.lookup "transform") =
        some d.transforms := by
  simp only [decode, Json.Record.read, run_bind members (run_required members _ _),
    run_bind members (run_optional members _ _), run_bind members (run_withDefault members _ _ _)]
  rw [Option.map_eq_some_iff]
  simp only [Option.bind_eq_some_iff, StateT.run_pure, Option.pure_def, Option.some.injEq]
  constructor
  · rintro ⟨_, ⟨_, h1, _, h2, _, h3, _, h4, _, h5, _, h6, rfl⟩, rfl⟩
    exact ⟨h1, h2, h3, h4, h5, h6⟩
  · rintro ⟨h1, h2, h3, h4, h5, h6⟩
    exact ⟨_, ⟨_, h1, _, h2, _, h3, _, h4, _, h5, _, h6, rfl⟩, rfl⟩

/-- Values and formats are values of documents, and steps have texts of their own. -/
structure Plain (d : Dataset) : Prop where
  values : ∀ j ∈ d.values, Json.Sound j
  format : ∀ j ∈ d.format, Json.Sound j
  transforms : ∀ t ∈ d.transforms, t.Plain

theorem encode_eq_record (d : Dataset) : d.encode = Json.record
    [Json.always "name" (.str d.name),
     Json.whenSet "source" d.source .str,
     Json.whenSet "values" d.values id,
     Json.whenSet "url" d.url .str,
     Json.whenSet "format" d.format id,
     Json.whenSet "transform" (Json.nonempty? d.transforms) fun ts =>
       .arr (ts.map OutputTransform.encode)] := by
  rw [encode, Json.ite_isEmpty_eq_whenSet "transform" d.transforms fun ts =>
    .arr (ts.map OutputTransform.encode)]

theorem decode_replace_iff {d : Dataset} (h : d.Plain) :
    decode (d.encode.replace g) = some d ↔
      (d.values ≠ some .null ∧ d.format ≠ some .null) ∧ d.encode.KeptBy g := by
  have htransforms := fun t ht => OutputTransform.takesBack (g := g) (h.transforms t ht)
  rw [encode_eq_record, Json.replace_record, Json.keptBy_record, Json.record, decode_obj_iff]
  simp only [Json.lookup_filterMap_id]
  simp only [List.map_cons, List.map_nil, Json.replaceMember_always,
    Json.replaceMember_whenSet, Json.member_always, Json.member_always_of_ne, Json.member_whenSet,
    Json.member_whenSet_of_ne, ne_eq, String.reduceEq, not_false_eq_true, Json.member_nil,
    Option.or_none, Option.bind_some, id_eq, (Json.takesBack_string (g := g) _).iff,
    Json.fieldOr_nullable_iff rfl fun s _ => Json.takesBack_string (g := g) s,
    Json.fieldOr_asAny_iff, Json.fieldOr_listOf_iff htransforms]
  simp only [List.forall_mem_cons, List.not_mem_nil, false_imp_iff, implies_true,
    Json.memberKeptBy_always, Json.memberKeptBy_whenSet, and_true, id_eq]
  tauto

theorem sound_encode {d : Dataset} (h : d.Plain) : d.encode.Sound := by
  have hstr := Json.Sound.str
  have htransforms : ∀ ts ∈ Json.nonempty? d.transforms,
      (Json.arr (ts.map OutputTransform.encode)).Sound := by
    intro ts hts
    refine .arr fun j hj => ?_
    obtain ⟨t, ht, rfl⟩ := List.mem_map.1 hj
    exact OutputTransform.sound_encode (h.transforms t (Json.mem_of_mem_nonempty? hts ht))
  rw [encode_eq_record]
  refine Json.sound_record ["name", "source", "values", "url", "format", "transform"]
    (by simp) (by decide) ?_
  simp only [List.forall_mem_cons, Json.memberSound_always, Json.memberSound_whenSet]
  exact ⟨hstr d.name, fun s _ => hstr s, h.values, fun s _ => hstr s, h.format, htransforms,
    by simp⟩

/-- A dataset is read back from its text exactly if it has no null for its rows or their format,
its doubles are read back, and it is not too deep. -/
theorem ofText?_encode_iff {d : Dataset} (h : d.Plain) :
    (Json.ofText? d.encode.render).bind decode = some d ↔
      (d.values ≠ some .null ∧ d.format ≠ some .null) ∧
        d.encode.depth ≤ Json.maxDepth ∧ ∀ x ∈ d.encode.numbers, Json.Kept x :=
  Json.ofText?_bind_eq_some_iff (sound_encode h) fun _ => decode_replace_iff h

end Dataset

end ChartCompiler
