import ChartCompiler.Output.Signal
import ChartCompiler.Proofs.Output.DatasetText

/-!
# Signals in text

What a handler listens to is written without saying of which kind it is, and read as the first kind
that fits. A single stream fits every object, as none of its keys is required, and several streams
fit every array of objects. So streams and selectors are read as what they are.

**Deviation.** A reference to a signal is read as a stream with nothing set, and several references
are read as several such streams.

Results:

* `EventStream.takesBack`: streams, which are nested in each other.
* `EventSource.Unshadowed`: the sources that no earlier kind fits.
* `EventSource.decode_replace_iff`: they are the ones that are read as what they are.
* `EventSource.decode_signal`, `EventSource.decode_signals`: what references to signals are read as.
* `Signal.ofText?_encode_iff`: which signals are read back.
-/

namespace ChartCompiler

open Json (TakesBack fieldOr)

variable {g : Binary64 → Option Binary64}

/-! ## Streams -/

namespace EventStream

theorem encode_eq_record (s : EventStream) : s.encode = Json.record
    [Json.whenSet "source" s.source .str,
     Json.whenSet "type" s.type .str,
     Json.whenSet "markname" s.markname .str,
     Json.whenSet "marktype" s.marktype .str,
     Json.whenSet "filter" s.filter Json.strings,
     Json.whenSet "throttle" s.throttle .float,
     Json.whenSet "debounce" s.debounce .float,
     Json.whenSet "consume" s.consume .bool,
     Json.whenSet "between" (Json.nonempty? s.between) fun ss => .arr (ss.map encode),
     Json.whenSet "stream" s.stream encode] := by
  obtain ⟨source, type, markname, marktype, filter, throttle, debounce, consume, between, stream⟩ :=
    s
  rw [encode, encodeAll_eq_map,
    Json.ite_isEmpty_eq_whenSet "between" between fun ss => .arr (ss.map encode)]
  cases stream <;> rfl

open Json.Record in
theorem decodeWithin_obj_iff {depth : Nat} {members : List (String × Json)} {s : EventStream} :
    decodeWithin (depth + 1) (.obj members) = some s ↔
      fieldOr none (Json.nullable Json.asString) (members.lookup "source") = some s.source ∧
      fieldOr none (Json.nullable Json.asString) (members.lookup "type") = some s.type ∧
      fieldOr none (Json.nullable Json.asString) (members.lookup "markname") = some s.markname ∧
      fieldOr none (Json.nullable Json.asString) (members.lookup "marktype") = some s.marktype ∧
      fieldOr none (Json.nullable (Json.listOf Json.asString)) (members.lookup "filter") =
        some s.filter ∧
      fieldOr none (Json.nullable Json.asNumber) (members.lookup "throttle") = some s.throttle ∧
      fieldOr none (Json.nullable Json.asNumber) (members.lookup "debounce") = some s.debounce ∧
      fieldOr none (Json.nullable Json.asBool) (members.lookup "consume") = some s.consume ∧
      fieldOr [] (Json.listOf (decodeWithin depth)) (members.lookup "between") = some s.between ∧
      fieldOr none (Json.nullable (decodeWithin depth)) (members.lookup "stream") =
        some s.stream := by
  rw [decodeWithin]
  simp only [Json.Record.read, run_bind members (run_optional members _ _),
    run_bind members (run_withDefault members _ _ _)]
  rw [Option.map_eq_some_iff]
  constructor
  · rintro ⟨⟨_, rest⟩, h, rfl⟩
    obtain ⟨source, h1, h⟩ := Option.bind_eq_some_iff.1 h
    obtain ⟨type, h2, h⟩ := Option.bind_eq_some_iff.1 h
    obtain ⟨markname, h3, h⟩ := Option.bind_eq_some_iff.1 h
    obtain ⟨marktype, h4, h⟩ := Option.bind_eq_some_iff.1 h
    obtain ⟨filter, h5, h⟩ := Option.bind_eq_some_iff.1 h
    obtain ⟨throttle, h6, h⟩ := Option.bind_eq_some_iff.1 h
    obtain ⟨debounce, h7, h⟩ := Option.bind_eq_some_iff.1 h
    obtain ⟨consume, h8, h⟩ := Option.bind_eq_some_iff.1 h
    obtain ⟨between, h9, h⟩ := Option.bind_eq_some_iff.1 h
    obtain ⟨stream, h10, heq⟩ := Option.bind_eq_some_iff.1 h
    cases heq
    exact ⟨h1, h2, h3, h4, h5, h6, h7, h8, h9, h10⟩
  · rintro ⟨h1, h2, h3, h4, h5, h6, h7, h8, h9, h10⟩
    cases s
    exact ⟨_, by simp only [h1, h2, h3, h4, h5, h6, h7, h8, h9, h10, Option.bind_some]; rfl, rfl⟩

/-- The streams of a range are nested less deeply than the stream. -/
theorem depth_between_le {s inner : EventStream} {depth : Nat} (h : s.encode.depth ≤ depth + 1)
    (hinner : inner ∈ s.between) : inner.encode.depth ≤ depth := by
  rw [encode_eq_record] at h
  have hmem : s.between ∈ Json.nonempty? s.between := by
    cases hbetween : s.between with
    | nil => simp [hbetween] at hinner
    | cons => rfl
  have hlist : (Json.arr (s.between.map encode)).depth ≤ depth :=
    Json.depth_whenSet_le "between" (fun ss => .arr (ss.map encode)) h (by simp) hmem
  cases depth with
  | zero => simp [Json.depth] at hlist
  | succ depth =>
    exact Nat.le_succ_of_le (Json.depth_arr_le.1 hlist _ (List.mem_map_of_mem hinner))

theorem depth_stream_le {s inner : EventStream} {depth : Nat} (h : s.encode.depth ≤ depth + 1)
    (hinner : inner ∈ s.stream) : inner.encode.depth ≤ depth := by
  rw [encode_eq_record] at h
  exact Json.depth_whenSet_le "stream" encode h (by simp) hinner

theorem takesBack_within (depth : Nat) : ∀ s : EventStream, s.encode.depth ≤ depth →
    TakesBack g (decodeWithin depth) encode s := by
  induction depth with
  | zero =>
    intro s h
    simp [encode_eq_record, Json.record, Json.depth] at h
  | succ depth ih =>
    intro s h
    have hbetween := fun inner hinner => ih inner (depth_between_le h hinner)
    have hstream := fun inner hinner => ih inner (depth_stream_le h hinner)
    rw [TakesBack, encode_eq_record, Json.replace_record, Json.keptBy_record, Json.record,
      decodeWithin_obj_iff]
    simp only [Json.lookup_filterMap_id]
    simp only [List.map_cons, List.map_nil, Json.replaceMember_whenSet, Json.member_whenSet,
      Json.member_whenSet_of_ne, ne_eq, String.reduceEq, not_false_eq_true, Json.member_nil,
      Option.or_none,
      Json.fieldOr_nullable_iff rfl fun s _ => Json.takesBack_string (g := g) s,
      Json.fieldOr_nullable_iff rfl fun ss _ => Json.takesBack_strings (g := g) ss,
      Json.fieldOr_nullable_iff rfl fun x _ => Json.takesBack_number (g := g) x,
      Json.fieldOr_nullable_iff rfl fun b _ => Json.takesBack_bool (g := g) b,
      Json.fieldOr_listOf_iff hbetween,
      Json.fieldOr_nullable_iff (by cases depth <;> rfl) hstream]
    simp only [List.forall_mem_cons, List.not_mem_nil, false_imp_iff, implies_true,
      Json.memberKeptBy_whenSet, and_true]

theorem takesBack (s : EventStream) : TakesBack g decode encode s :=
  takesBack_within _ s (Json.depth_replace_le.1 (Nat.le_refl _))

end EventStream

/-! ## Sources of events -/

namespace EventStream

/-- An array that starts with an object is no stream. -/
theorem decode_arr_obj (members : List (String × Json)) (rest : List Json) :
    decode (.arr (.obj members :: rest)) = none := rfl

end EventStream

namespace EventSource

/-- Whether no kind in front of its own fits what is written for a source. -/
def Unshadowed : EventSource → Prop
  | .stream _ => True
  | .streams ss => ss ≠ []
  | .signal _ => False
  | .signals _ => False
  | .selector _ => True

instance : DecidablePred Unshadowed
  | .stream _ => .isTrue trivial
  | .streams [] => .isFalse fun h => h rfl
  | .streams (_ :: _) => .isTrue (List.cons_ne_nil _ _)
  | .signal _ => .isFalse id
  | .signals _ => .isFalse id
  | .selector _ => .isTrue trivial

theorem decode_stream_iff {j : Json} {s : EventStream} :
    decode j = some (.stream s) ↔ EventStream.decode j = some s := by
  unfold decode
  simp only [Json.orElse]
  cases EventStream.decode j with
  | some found => simp
  | none =>
    cases Json.listOf EventStream.decode j <;> cases SignalRef.decode j <;>
      cases Json.listOf SignalRef.decode j <;> simp

theorem decode_streams_iff {j : Json} (hj : EventStream.decode j = none) {ss : List EventStream} :
    decode j = some (.streams ss) ↔ Json.listOf EventStream.decode j = some ss := by
  unfold decode
  simp only [Json.orElse, hj]
  cases Json.listOf EventStream.decode j with
  | some found => simp
  | none =>
    cases SignalRef.decode j <;> cases Json.listOf SignalRef.decode j <;> simp

/-- A reference to a signal is read as a stream. -/
theorem decode_signal (r : SignalRef) : decode (signal r).encode = some (.stream .empty) := rfl

/-- References to signals are read as streams. -/
theorem decode_signals (r : SignalRef) (refs : List SignalRef) :
    decode (signals (r :: refs)).encode =
      some (.streams ((r :: refs).map fun _ => EventStream.empty)) := by
  have hnone : EventStream.decode (signals (r :: refs)).encode = none :=
    EventStream.decode_arr_obj _ _
  rw [decode_streams_iff hnone, encode, Json.listOf, List.mapM_map]
  exact List.mapM_pure

theorem encode_stream_eq_obj (s : EventStream) :
    ∃ members, s.encode.replace g = .obj members := by
  rw [EventStream.encode_eq_record, Json.replace_record]
  exact ⟨_, rfl⟩

/-- A source is read as what it is exactly if no kind in front of its own fits. -/
theorem decode_replace_iff {e : EventSource} :
    decode (e.encode.replace g) = some e ↔ e.Unshadowed ∧ e.encode.KeptBy g := by
  have hrefs : ∀ r : SignalRef, r.encode.replace g = r.encode := fun _ => rfl
  cases e with
  | stream s =>
    rw [decode_stream_iff]
    exact s.takesBack.iff.trans (and_iff_right trivial).symm
  | streams ss =>
    cases ss with
    | nil => exact iff_of_false nofun fun h => h.1 rfl
    | cons s rest =>
      obtain ⟨members, hs⟩ := encode_stream_eq_obj (g := g) s
      have hnone : EventStream.decode ((streams (s :: rest)).encode.replace g) = none := by
        rw [encode, Json.replace, List.map_cons, Json.replaceItems, hs]
        exact EventStream.decode_arr_obj _ _
      rw [decode_streams_iff hnone]
      exact (Json.takesBack_list fun s _ => s.takesBack).iff.trans
        (and_iff_right (List.cons_ne_nil _ _)).symm
  | signal r =>
    refine iff_of_false (fun h => ?_) fun h => h.1
    rw [encode, hrefs, ← encode, decode_signal] at h
    cases h
  | signals refs =>
    refine iff_of_false (fun h => ?_) fun h => h.1
    have hreplace : (signals refs).encode.replace g = (signals refs).encode := by
      simp [encode, Json.replace, Json.replaceItems_eq_map, hrefs]
    rw [hreplace] at h
    cases refs with
    | nil => cases h
    | cons r rest =>
      rw [decode_signals] at h
      cases h
  | selector s => exact iff_of_true rfl ⟨trivial, Json.keptBy_str s⟩

end EventSource

/-! ## Handlers -/

namespace Handler

open Json.Record in
theorem decode_obj_iff {members : List (String × Json)} {h : Handler} :
    decode (.obj members) = some h ↔
      (members.lookup "events").bind EventSource.decode = some h.events ∧
      (members.lookup "update").bind Json.asString = some h.update ∧
      fieldOr none (Json.nullable Json.asBool) (members.lookup "force") = some h.force := by
  simp only [decode, Json.Record.read, run_bind members (run_required members _ _),
    run_bind members (run_optional members _ _)]
  rw [Option.map_eq_some_iff]
  simp only [Option.bind_eq_some_iff, StateT.run_pure, Option.pure_def, Option.some.injEq]
  constructor
  · rintro ⟨_, ⟨_, h1, _, h2, _, h3, rfl⟩, rfl⟩
    exact ⟨h1, h2, h3⟩
  · rintro ⟨h1, h2, h3⟩
    exact ⟨_, ⟨_, h1, _, h2, _, h3, rfl⟩, rfl⟩

theorem decode_replace_iff {h : Handler} :
    decode (h.encode.replace g) = some h ↔ h.events.Unshadowed ∧ h.encode.KeptBy g := by
  rw [encode, Json.replace_record, Json.keptBy_record, Json.record, decode_obj_iff]
  simp only [Json.lookup_filterMap_id]
  simp only [List.map_cons, List.map_nil, Json.replaceMember_always,
    Json.replaceMember_whenSet, Json.member_always, Json.member_always_of_ne, Json.member_whenSet,
    ne_eq, String.reduceEq, not_false_eq_true, Json.member_nil, Option.or_none, Option.bind_some,
    EventSource.decode_replace_iff, (Json.takesBack_string (g := g) _).iff,
    Json.fieldOr_nullable_iff rfl fun b _ => Json.takesBack_bool (g := g) b]
  simp only [List.forall_mem_cons, List.not_mem_nil, false_imp_iff, implies_true,
    Json.memberKeptBy_always, Json.memberKeptBy_whenSet, and_true, and_assoc]

end Handler

/-! ## Signals -/

namespace Signal

open Json.Record in
theorem decode_obj_iff {members : List (String × Json)} {s : Signal} :
    decode (.obj members) = some s ↔
      (members.lookup "name").bind Json.asString = some s.name ∧
      fieldOr none (Json.nullable Json.asAny) (members.lookup "value") = some s.value ∧
      fieldOr none (Json.nullable Json.asString) (members.lookup "update") = some s.update ∧
      fieldOr none (Json.nullable (Json.listOf Handler.decode)) (members.lookup "on") =
        some s.handlers ∧
      fieldOr none (Json.nullable Json.asAny) (members.lookup "bind") = some s.bind ∧
      fieldOr none (Json.nullable Json.asString) (members.lookup "push") = some s.push := by
  simp only [decode, Json.Record.read, run_bind members (run_required members _ _),
    run_bind members (run_optional members _ _)]
  rw [Option.map_eq_some_iff]
  simp only [Option.bind_eq_some_iff, StateT.run_pure, Option.pure_def, Option.some.injEq]
  constructor
  · rintro ⟨_, ⟨_, h1, _, h2, _, h3, _, h4, _, h5, _, h6, rfl⟩, rfl⟩
    exact ⟨h1, h2, h3, h4, h5, h6⟩
  · rintro ⟨h1, h2, h3, h4, h5, h6⟩
    exact ⟨_, ⟨_, h1, _, h2, _, h3, _, h4, _, h5, _, h6, rfl⟩, rfl⟩

/-- Whether no handler listens to what is read as something else. -/
def Unshadowed (s : Signal) : Prop := ∀ hs ∈ s.handlers, ∀ h ∈ hs, h.events.Unshadowed

instance : DecidablePred Unshadowed := fun s =>
  inferInstanceAs (Decidable (∀ hs ∈ s.handlers, ∀ h ∈ hs, h.events.Unshadowed))

theorem decode_replace_iff {s : Signal} :
    decode (s.encode.replace g) = some s ↔
      (s.value ≠ some .null ∧ s.bind ≠ some .null ∧ s.Unshadowed) ∧ s.encode.KeptBy g := by
  have hlist : ∀ hs ∈ s.handlers,
      Json.listOf Handler.decode ((Json.arr (hs.map Handler.encode)).replace g) = some hs ↔
        (∀ h ∈ hs, h.events.Unshadowed) ∧ (Json.arr (hs.map Handler.encode)).KeptBy g :=
    fun _ _ => Json.listOf_replace_iff fun _ _ => Handler.decode_replace_iff
  rw [encode, Json.replace_record, Json.keptBy_record, Json.record, decode_obj_iff]
  simp only [Json.lookup_filterMap_id]
  simp only [List.map_cons, List.map_nil, Json.replaceMember_always,
    Json.replaceMember_whenSet, Json.member_always, Json.member_always_of_ne, Json.member_whenSet,
    Json.member_whenSet_of_ne, ne_eq, String.reduceEq, not_false_eq_true, Json.member_nil,
    Option.or_none, Option.bind_some, id_eq, (Json.takesBack_string (g := g) _).iff,
    Json.fieldOr_nullable_iff rfl fun s _ => Json.takesBack_string (g := g) s,
    Json.fieldOr_asAny_iff, Json.fieldOr_replace_iff rfl hlist]
  simp only [List.forall_mem_cons, List.not_mem_nil, false_imp_iff, implies_true,
    Json.memberKeptBy_always, Json.memberKeptBy_whenSet, and_true, id_eq, Unshadowed]
  tauto

end Signal

/-! ## Signals are values of documents -/

namespace EventStream

theorem sound_within (depth : Nat) : ∀ s : EventStream, s.encode.depth ≤ depth →
    s.encode.Sound := by
  have hstr := Json.Sound.str
  induction depth with
  | zero =>
    intro s h
    simp [encode_eq_record, Json.record, Json.depth] at h
  | succ depth ih =>
    intro s h
    have hbetween : ∀ ss ∈ Json.nonempty? s.between, (Json.arr (ss.map encode)).Sound := by
      intro ss hss
      refine .arr fun j hj => ?_
      obtain ⟨inner, hinner, rfl⟩ := List.mem_map.1 hj
      exact ih inner (depth_between_le h (Json.mem_of_mem_nonempty? hss hinner))
    rw [encode_eq_record]
    refine Json.sound_record ["source", "type", "markname", "marktype", "filter", "throttle",
      "debounce", "consume", "between", "stream"] (by simp) (by decide) ?_
    simp only [List.forall_mem_cons, Json.memberSound_whenSet]
    exact ⟨fun s _ => hstr s, fun s _ => hstr s, fun s _ => hstr s, fun s _ => hstr s,
      fun ss _ => Json.sound_strings ss, fun x _ => .float x, fun x _ => .float x,
      fun b _ => .bool b, hbetween, fun inner hinner => ih inner (depth_stream_le h hinner),
      by simp⟩

theorem sound_encode (s : EventStream) : s.encode.Sound := sound_within _ s (Nat.le_refl _)

end EventStream

theorem SignalRef.sound_encode (r : SignalRef) : r.encode.Sound :=
  .obj (by simp) (by simp [Json.Sound.str])

theorem EventSource.sound_encode (e : EventSource) : e.encode.Sound := by
  cases e with
  | stream s => exact s.sound_encode
  | streams ss =>
    refine .arr fun j hj => ?_
    obtain ⟨s, -, rfl⟩ := List.mem_map.1 hj
    exact s.sound_encode
  | signal r => exact r.sound_encode
  | signals refs =>
    refine .arr fun j hj => ?_
    obtain ⟨r, -, rfl⟩ := List.mem_map.1 hj
    exact r.sound_encode
  | selector s => exact .str s

theorem Handler.sound_encode (h : Handler) : h.encode.Sound := by
  refine Json.sound_record ["events", "update", "force"] (by simp) (by decide) ?_
  simp only [List.forall_mem_cons, Json.memberSound_always, Json.memberSound_whenSet]
  exact ⟨h.events.sound_encode, .str _, fun b _ => .bool b, by simp⟩

namespace Signal

/-- The value is one of documents and no null, and what an input is bound to is one of documents. -/
structure Plain (s : Signal) : Prop where
  value : ∀ j ∈ s.value, j.Sound ∧ j ≠ .null
  bind : ∀ j ∈ s.bind, Json.Sound j

theorem sound_encode {s : Signal} (h : s.Plain) : s.encode.Sound := by
  have hstr := Json.Sound.str
  have hhandlers : ∀ hs ∈ s.handlers, (Json.arr (hs.map Handler.encode)).Sound := by
    intro hs _
    refine .arr fun j hj => ?_
    obtain ⟨handler, -, rfl⟩ := List.mem_map.1 hj
    exact handler.sound_encode
  refine Json.sound_record ["name", "value", "update", "on", "bind", "push"]
    (by simp) (by decide) ?_
  simp only [List.forall_mem_cons, Json.memberSound_always, Json.memberSound_whenSet]
  exact ⟨hstr _, fun j hj => (h.value j hj).1, fun s _ => hstr s, hhandlers, h.bind,
    fun s _ => hstr s, by simp⟩

/-- A signal is read back from its text exactly if what it is bound to is no null, no handler
listens to what is read as something else, it is not nested too deep, and its doubles are read
back. -/
theorem ofText?_encode_iff {s : Signal} (h : s.Plain) :
    (Json.ofText? s.encode.render).bind decode = some s ↔
      (s.bind ≠ some .null ∧ s.Unshadowed) ∧
        s.encode.depth ≤ Json.maxDepth ∧ ∀ x ∈ s.encode.numbers, Json.Kept x := by
  have hvalue : s.value ≠ some .null := fun hnull => (h.value _ hnull).2 rfl
  refine Json.ofText?_bind_eq_some_iff (sound_encode h) fun _ => ?_
  rw [decode_replace_iff, and_iff_right hvalue]
  rfl

end Signal

end ChartCompiler
