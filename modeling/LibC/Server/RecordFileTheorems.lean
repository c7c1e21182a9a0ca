/-
LibC.Server.RecordFileTheorems — which files read back.

A call of `SaveObj` whose writes succeed stores a whole record and answers its
size as an `int`, or, when the message serializes to nothing, stores the type
byte alone and answers `-1`. The loader reads whole records one by one
(`readAll_records`), and a type byte on its own as one record more. So a file
reads back exactly when every call stored a record and answered a positive
number (`run_readsBack_iff`); a record that is long enough turns the number
negative or zero.

No `sorry`, no `axiom`, no `native_decide`.
-/
import LibC.Server.RecordFile
import LibC.Server.SldbTheorems
import LibC.Lib.Run

namespace LibC

open LibC.Lib

/-! ## One record -/

/-- A record of the file. -/
def recordBytes (type : UInt8) (body : Bytes) : Bytes :=
  type :: (lenBytes body.length ++ body)

/-- The number of bytes of a record. -/
def recordSize (body : Bytes) : ℕ := 1 + ((lenBytes body.length).length + body.length)

/-- The message serializes to something, and the size of its record is positive as an `int`. -/
def Recordable (body : Bytes) : Prop :=
  body ≠ [] ∧ (recordSize body < 2 ^ 31 ∨ 2 ^ 32 < recordSize body)

theorem lenBytes_length_le (n : ℕ) : (lenBytes n).length ≤ 5 := by
  unfold lenBytes
  split
  · simp
  · split <;> simp

/-- The size of a record as an `int`. -/
theorem toInt_recordSize {body : Bytes} (hlt : body.length < 2 ^ 32 - 1) :
    0 < toInt (recordSize body) ↔ recordSize body < 2 ^ 31 ∨ 2 ^ 32 < recordSize body := by
  have hle := lenBytes_length_le body.length
  have hsize : recordSize body ≤ 2 ^ 32 + 4 := by
    unfold recordSize
    omega
  have hpos : 1 ≤ recordSize body := Nat.le_add_right 1 _
  generalize recordSize body = n at hsize hpos
  simp only [toInt, Int.bmod]
  split <;> omega

/-- `SaveObj` of a message that serializes to nothing stores the type byte. -/
theorem saveObjStr_nil (type : UInt8) (content : Bytes) :
    saveObjStr (fun _ => .ok) [] type ⟨content, 0⟩ = (-1, ⟨content ++ [type], 1⟩) := by
  simp [saveObjStr, saveRawString, fileWrite]

/-- `SaveObj` of any other message stores a record, and answers its size. -/
theorem saveObjStr_record (type : UInt8) {body : Bytes} (hne : body ≠ [])
    (hlt : body.length < 2 ^ 32 - 1) (content : Bytes) :
    ∃ w', saveObjStr (fun _ => .ok) body type ⟨content, 0⟩ = (toInt (recordSize body), w') ∧
      w'.content = content ++ recordBytes type body := by
  have hall : ∀ k n, AllOk (fun _ => .ok) k n := fun _ _ _ _ _ => rfl
  have hw : fileWrite (fun _ => .ok) [type] ⟨content, 0⟩ = (1, ⟨content ++ [type], 1⟩) := by
    simp [fileWrite]
  have hpos := lenBytes_length_pos body.length
  obtain ⟨w', ⟨hsave, hout⟩ | ⟨_, hout⟩⟩ :=
    saveRawString_spec (fun _ => .ok) hne hlt ⟨content ++ [type], 1⟩
  · cases hout with
    | stored _ hc _ =>
        refine ⟨w', ?_, by rw [hc, List.append_assoc]; rfl⟩
        simp only [saveObjStr, hw, hsave]
        rw [if_neg (by decide), if_neg (by rw [List.length_append]; omega), recordSize,
          List.length_append]
        rfl
  · cases hout with
    | failed _ hio _ _ _ => exact absurd (hall _ _) hio

/-- `LoadObj` of a record. -/
theorem loadObjStr_record {N : Type} (parse : Bytes → Option N) {body : Bytes} (hne : body ≠ [])
    (hlt : body.length < 2 ^ 32 - 1) (rest : Bytes) :
    loadObjStr parse (lenBytes body.length ++ body ++ rest) = (parse body, rest) := by
  rw [loadObjStr, loadRawString_record hne hlt]

/-! ## Files of records -/

variable {M : UInt8 → Type} (c : ∀ type, ObjCodec (M type))

/-- What a message serializes to. -/
def bodyOf (x : Sigma M) : Bytes := (c x.1).serializeAsString x.2

/-- The records of some messages. -/
def recordsOf (xs : List (Sigma M)) : Bytes := xs.flatMap fun x => recordBytes x.1 (bodyOf c x)

theorem length_le_recordsOf : ∀ xs : List (Sigma M), xs.length ≤ (recordsOf c xs).length
  | [] => Nat.le_refl 0
  | x :: xs => by
      have ih := length_le_recordsOf xs
      rw [recordsOf, List.flatMap_cons, List.length_append, List.length_cons, recordBytes,
        List.length_cons]
      rw [recordsOf] at ih
      omega

/-- The loader reads the records, and goes on with what follows. -/
theorem readAll_records (fuel : ℕ) (rest : Bytes) : ∀ xs : List (Sigma M),
    (∀ x ∈ xs, bodyOf c x ≠ []) →
    readAll c (xs.length + fuel) (recordsOf c xs ++ rest) =
      (readAll c fuel rest).map fun records => (xs.map fun x => ⟨x.1, some x.2⟩) ++ records
  | [], _ => by simp [recordsOf]
  | x :: xs, hne => by
      have ih := readAll_records fuel rest xs fun y hy => hne y (List.mem_cons_of_mem x hy)
      have hload := loadObjStr_record (c x.1).parseFromString (hne x (List.mem_cons_self ..))
        ((c x.1).size_lt x.2) (recordsOf c xs ++ rest)
      have hbytes : recordsOf c (x :: xs) ++ rest =
          x.1 :: (lenBytes (bodyOf c x).length ++ bodyOf c x ++ (recordsOf c xs ++ rest)) := by
        simp [recordsOf, recordBytes]
      rw [hbytes, List.length_cons, Nat.add_right_comm, readAll, loadType_cons]
      simp only [hload]
      rw [ih, bodyOf, (c x.1).parse_serialize, Option.map_map]
      rfl

/-- A type byte with nothing behind it is read as a record without a message. -/
theorem readAll_type (fuel : ℕ) (type : UInt8) :
    readAll c (fuel + 2) [type] = some [⟨type, none⟩] := by
  have hload : loadObjStr (c type).parseFromString [] = (none, []) := rfl
  rw [readAll, loadType_cons]
  simp only [hload]
  rfl

/-! ## Runs -/

/-- The file is the records that were saved. -/
structure SaveLog.Clean (s : SaveLog M) : Prop where
  content : s.content = recordsOf c s.saved
  ne : ∀ x ∈ s.saved, bodyOf c x ≠ []

variable {c} {s : SaveLog M}

/-- Such a file reads back. -/
theorem SaveLog.Clean.readsBack (h : s.Clean c) : FileReadsBack c s := by
  have hle := length_le_recordsOf c s.saved
  obtain ⟨fuel, hfuel⟩ := Nat.exists_eq_add_of_le hle
  have hread := readAll_records c (fuel + 1) [] s.saved h.ne
  rw [List.append_nil, ← Nat.add_assoc, ← hfuel] at hread
  rw [FileReadsBack, h.content, hread]
  simp [readAll, loadType, fileRead]

/-- A call for a message that serializes to nothing adds a type byte. -/
theorem saveStep_nil {call : Sigma M} (h : bodyOf c call = []) (s : SaveLog M) :
    saveStep c call s = some ⟨s.content ++ [call.1], s.saved⟩ := by
  rw [bodyOf] at h
  unfold saveStep
  simp only [h, saveObjStr_nil]
  rw [if_neg (by decide)]

/-- Any other call adds a record. -/
theorem saveStep_record {call : Sigma M} (h : bodyOf c call ≠ []) (s : SaveLog M) :
    saveStep c call s = some ⟨s.content ++ recordBytes call.1 (bodyOf c call),
      if 0 < toInt (recordSize (bodyOf c call)) then s.saved ++ [call] else s.saved⟩ := by
  obtain ⟨w', hsave, hcontent⟩ := saveObjStr_record call.1 h ((c call.1).size_lt call.2) s.content
  rw [← hcontent]
  rw [bodyOf] at hsave
  unfold saveStep
  simp only [hsave]
  rfl

/-- A file of records, with one more. -/
theorem SaveLog.Clean.add (h : s.Clean c) {call : Sigma M} (hne : bodyOf c call ≠ []) :
    SaveLog.Clean c ⟨s.content ++ recordBytes call.1 (bodyOf c call), s.saved ++ [call]⟩ := by
  refine ⟨by simp [h.content, recordsOf], fun x hx => ?_⟩
  rcases List.mem_append.mp hx with hx | hx
  · exact h.ne x hx
  · rw [List.mem_singleton.mp hx]
    exact hne

/-- A type byte at the end is read as a record. -/
theorem SaveLog.Clean.not_readsBack_type (h : s.Clean c) (type : UInt8) :
    ¬ FileReadsBack c ⟨s.content ++ [type], s.saved⟩ := by
  obtain ⟨fuel, hfuel⟩ := Nat.exists_eq_add_of_le (length_le_recordsOf c s.saved)
  have hread := readAll_records c (fuel + 2) [type] s.saved h.ne
  rw [readAll_type, ← Nat.add_assoc, ← hfuel] at hread
  intro hback
  rw [FileReadsBack, List.length_append, List.length_singleton, h.content, hread] at hback
  have hlen := congrArg List.length (Option.some.inj hback)
  simp at hlen

/-- A call keeps the file readable exactly when it answers a positive number. -/
theorem SaveLog.Clean.step (h : s.Clean c) {call : Sigma M} {s' : SaveLog M}
    (hstep : saveStep c call s = some s') :
    (FileReadsBack c s' ↔ Recordable (bodyOf c call)) ∧
      (Recordable (bodyOf c call) → s'.Clean c) := by
  by_cases hnil : bodyOf c call = []
  · have hno : ¬ Recordable (bodyOf c call) := fun h => h.1 hnil
    rw [saveStep_nil hnil] at hstep
    obtain rfl := Option.some.inj hstep
    exact ⟨⟨fun hb => absurd hb (h.not_readsBack_type _), fun hp => absurd hp hno⟩,
      fun hp => absurd hp hno⟩
  · have hsign := toInt_recordSize ((c call.1).size_lt call.2)
    have hclean := h.add hnil
    rw [saveStep_record hnil] at hstep
    obtain rfl := Option.some.inj hstep
    by_cases hpos : 0 < toInt (recordSize (bodyOf c call))
    · rw [if_pos hpos]
      exact ⟨⟨fun _ => ⟨hnil, hsign.mp hpos⟩, fun _ => hclean.readsBack⟩, fun _ => hclean⟩
    · -- the record is there, but the call said that it is not
      have hno : ¬ Recordable (bodyOf c call) := fun hp => hpos (hsign.mpr hp.2)
      rw [if_neg hpos]
      refine ⟨⟨fun hb => ?_, fun hp => absurd hp hno⟩, fun hp => absurd hp hno⟩
      have hlen := congrArg List.length
        (Option.some.inj ((show _ = _ from hclean.readsBack).symm.trans hb))
      simp at hlen

/-- **Saved records.** In every sequence of calls of `SaveObj` whose writes succeed, the file reads
back after each call as the records whose call answered a positive number, exactly when every call
is for a message that serializes to something and whose record has a positive `int` size. -/
theorem run_readsBack_iff (c : ∀ type, ObjCodec (M type)) (calls : List (Sigma M)) :
    (∀ past rest, calls = past ++ rest →
      ∃ s, run (saveStep c) past ⟨[], []⟩ = some s ∧ FileReadsBack c s) ↔
      ∀ call ∈ calls, Recordable (bodyOf c call) := by
  have htotal : ∀ call s, ∃ s', saveStep c call s = some s' := fun _ _ => ⟨_, rfl⟩
  have hnew : SaveLog.Clean c ⟨[], []⟩ := ⟨rfl, by simp⟩
  rw [← along_iff_forall htotal calls ⟨[], []⟩]
  refine run_always_iff (SaveLog.Clean c) (fun _ s => FileReadsBack c s) (fun call s h => ?_)
    (fun _ call s s' h _ hstep => (h.step hstep).1) calls [] _ hnew hnew.readsBack
  obtain ⟨s', hstep⟩ := htotal call s
  exact ⟨s', hstep, (h.step hstep).2⟩

/-! ## A message without bytes -/

/-- Messages that are the strings they serialize to. -/
def rawCodec : ObjCodec {str : Bytes // str.length < 2 ^ 32 - 1} where
  serializeAsString := Subtype.val
  parseFromString str := if h : str.length < 2 ^ 32 - 1 then some ⟨str, h⟩ else none
  parse_serialize m := dif_pos m.2
  size_lt m := m.2

/-- An empty message under `TABLE`, and then `MsgDbObj` with `dbnum` `1`: the call for the first
answers `-1` and leaves its type byte, and the second record is not found. -/
theorem saveObj_leaves_type :
    ∃ s, run (saveStep fun _ => rawCodec) [⟨2, ⟨[], by decide⟩⟩, ⟨1, ⟨[8, 1], by decide⟩⟩]
        (⟨[], []⟩ : SaveLog fun _ => {str : Bytes // str.length < 2 ^ 32 - 1}) = some s ∧
      s.content = [2, 1, 2, 8, 1] ∧ s.saved.map Sigma.fst = [1] ∧
      ¬ FileReadsBack (fun _ => rawCodec) s := by
  refine ⟨⟨[2, 1, 2, 8, 1], [⟨1, ⟨[8, 1], by decide⟩⟩]⟩, rfl, rfl, rfl, fun hback => ?_⟩
  have htypes := congrArg (Option.map fun records => records.map Sigma.fst) hback
  revert htypes
  decide +kernel

end LibC
