/-
LibC.Server.LoadTheorems — loading a file, whole or cut off.

A complete record has the same effect on the loader whatever follows it
(`loadRecord_append`), so a file that begins with complete records is loaded
record by record (`loadLoop_records`). A record that is cut off anywhere, in
its length or in its body, makes `LoadObj` fail with nothing left of the file
(`loadRecord_cut`), and the next round finds the end of the file.

`load_truncated` puts this together: of a file written by a save without
errors, the first `k` bytes load as the longest record prefix that fits in
them, and `reads` shows that a record which is cut off yields its own type
byte and nothing else.

No `sorry`, no `axiom`, no `native_decide`.
-/
import LibC.Server.SaveTheorems

namespace LibC

open LibC.Lib

variable {α : Type} [LinearOrder α] [Neg α] [One α]

/-! ## One record -/

/-- The bytes of a record after its type byte. -/
def recordTail (body : Bytes) : Bytes := lenBytes body.length ++ body

/-- A body that has a record: it is not empty and below 2 GiB. -/
def BodyOk (body : Bytes) : Prop := body ≠ [] ∧ body.length < 2 ^ 31

omit [LinearOrder α] [Neg α] [One α] in
/-- `LoadObj` of a complete record. -/
theorem Loader.loadObj_record {M : Type} (c : Codec M) (type : MsgNodeType) {body : Bytes}
    (hb : BodyOk body) (s : Loader α) (rest : Bytes) :
    Loader.loadObj c type { s with file := recordTail body ++ rest } =
      (c.parseFromString body,
        { s with file := rest, reads := s.reads ++ [(type, some body)] }) := by
  have hload := loadRawString_record hb.1 (Nat.lt_trans hb.2 (by decide)) rest
  simp only [Loader.loadObj, LibC.loadObj, recordTail, hload]

/-- What follows a complete record does not matter for its effect. -/
theorem loadRecord_append (c : Codecs α) (heights : ℕ → Lvl) (type : MsgNodeType) {body : Bytes}
    (hb : BodyOk body) (s : Loader α) (rest : Bytes) :
    loadRecord c heights type { s with file := recordTail body ++ rest } =
      (loadRecord c heights type { s with file := recordTail body }).map fun s' =>
        { s' with file := rest } := by
  have hnil : recordTail body = recordTail body ++ [] := (List.append_nil _).symm
  cases type with
  | version =>
      rw [loadRecord, loadRecord, Loader.loadObj_record _ _ hb]
      conv => rhs; rw [hnil, Loader.loadObj_record _ _ hb]
      rfl
  | db =>
      rw [loadRecord, loadRecord, Loader.loadObj_record _ _ hb]
      conv => rhs; rw [hnil, Loader.loadObj_record _ _ hb]
      rfl
  | table =>
      rw [loadRecord, loadRecord, Loader.loadObj_record _ _ hb]
      conv => rhs; rw [hnil, Loader.loadObj_record _ _ hb]
      cases c.table.parseFromString body <;> rfl
  | key =>
      rw [loadRecord, loadRecord, Loader.loadObj_record _ _ hb]
      conv => rhs; rw [hnil, Loader.loadObj_record _ _ hb]
      cases c.key.parseFromString body with
      | none => rfl
      | some obj =>
          cases s.curSset with
          | none => rfl
          | some cur =>
              cases hf : s.db.dbDict.find cur with
              | none => simp [hf]
              | some sset =>
                  cases hall : insertAll heights (obj.key.zip obj.val) sset s.draws <;>
                    simp [hf, hall]

/-- A record that is cut off. -/
theorem loadRecord_cut (c : Codecs α) (heights : ℕ → Lvl) (type : MsgNodeType) {body p : Bytes}
    (hb : BodyOk body) (hp : p <+: recordTail body) (hne : p ≠ recordTail body) (s : Loader α) :
    loadRecord c heights type { s with file := p } =
      some { s with file := [], reads := s.reads ++ [(type, none)] } := by
  have hload : loadRawString p = (none, []) :=
    loadRawString_cut (Nat.lt_trans hb.2 (by decide)) hp hne
  have hobj : ∀ {M : Type} (c : Codec M), Loader.loadObj c type { s with file := p } =
      (none, { s with file := [], reads := s.reads ++ [(type, none)] }) := by
    intro M c
    simp only [Loader.loadObj, LibC.loadObj, hload]
  cases type <;> simp only [loadRecord, hobj]

/-! ## A list of records -/

/-- The loader after some complete records. -/
def loadRecords (c : Codecs α) (heights : ℕ → Lvl) :
    List (MsgNodeType × Bytes) → Loader α → Option (Loader α)
  | [], s => some s
  | r :: rest, s =>
      (loadRecord c heights r.1 { s with file := recordTail r.2 }).bind
        (loadRecords c heights rest)

theorem ofByte_toByte (type : MsgNodeType) : MsgNodeType.ofByte? type.toByte = some type := by
  cases type <;> rfl

/-- One round of the loader, on a complete record. -/
theorem loadLoop_record (c : Codecs α) (heights : ℕ → Lvl) (r : MsgNodeType × Bytes)
    (hb : BodyOk r.2) (fuel : ℕ) (s : Loader α) (rest : Bytes) :
    loadLoop c heights (fuel + 1) { s with file := record r.1 r.2 ++ rest } =
      (loadRecord c heights r.1 { s with file := recordTail r.2 }).bind fun s' =>
        loadLoop c heights fuel { s' with file := rest } := by
  have hfile : record r.1 r.2 ++ rest = r.1.toByte :: (recordTail r.2 ++ rest) := rfl
  rw [loadLoop]
  simp only [hfile, loadType_cons, ofByte_toByte]
  rw [loadRecord_append c heights r.1 hb s rest]
  cases loadRecord c heights r.1 { s with file := recordTail r.2 } <;> rfl

/-- The rounds of the loader, on complete records. -/
theorem loadLoop_records (c : Codecs α) (heights : ℕ → Lvl) :
    ∀ (rs : List (MsgNodeType × Bytes)), (∀ r ∈ rs, BodyOk r.2) →
      ∀ (fuel : ℕ) (s : Loader α) (rest : Bytes),
      loadLoop c heights (rs.length + fuel) { s with file := fileOf rs ++ rest } =
        (loadRecords c heights rs s).bind fun s' => loadLoop c heights fuel { s' with file := rest }
  | [], _, fuel, s, rest => by simp [loadRecords, fileOf]
  | r :: rs, hok, fuel, s, rest => by
      have hlen : (r :: rs).length + fuel = (rs.length + fuel) + 1 := by
        rw [List.length_cons]; omega
      rw [hlen, fileOf_cons, List.append_assoc,
        loadLoop_record c heights r (hok r (List.mem_cons_self ..)), loadRecords]
      cases loadRecord c heights r.1 { s with file := recordTail r.2 } with
      | none => rfl
      | some s1 =>
          exact loadLoop_records c heights rs (fun r' h => hok r' (List.mem_cons_of_mem _ h))
            fuel s1 rest

/-- Complete records never fault, and `reads` lists them. -/
theorem loadRecords_ok (c : Codecs α) (heights : ℕ → Lvl) :
    ∀ (rs : List (MsgNodeType × Bytes)), (∀ r ∈ rs, BodyOk r.2) → ∀ s : Loader α, s.Ok →
      ∃ s', loadRecords c heights rs s = some s' ∧ s'.Ok ∧
        s'.reads = s.reads ++ rs.map fun r => (r.1, some r.2)
  | [], _, s, h => ⟨s, rfl, h, by simp⟩
  | r :: rs, hok, s, h => by
      obtain ⟨s1, hrec, h1, _, hreads⟩ := loadRecord_ok c heights r.1
        (s := { s with file := recordTail r.2 }) ⟨h.db, h.cur⟩
      have hb := hok r (List.mem_cons_self ..)
      have hraw : loadRawString (recordTail r.2) = (some r.2, []) := by
        have h := loadRawString_record hb.1 (Nat.lt_trans hb.2 (by decide)) []
        rwa [List.append_nil] at h
      obtain ⟨s2, hrest, h2, hr2⟩ := loadRecords_ok c heights rs
        (fun r' hr => hok r' (List.mem_cons_of_mem _ hr)) s1 h1
      refine ⟨s2, by simp [loadRecords, hrec, hrest], h2, ?_⟩
      rw [hr2, hreads, hraw, List.map_cons, List.append_assoc]
      rfl

/-! ## A file that is cut off -/

theorem record_length_pos (r : MsgNodeType × Bytes) : 0 < (record r.1 r.2).length := by
  simp [record]

theorem fileOf_eq_flatten (rs : List (MsgNodeType × Bytes)) :
    fileOf rs = (rs.map fun r => record r.1 r.2).flatten := List.flatMap_def

/-- A beginning of a file is some complete records and a proper beginning of the next
one. -/
theorem take_fileOf (rs : List (MsgNodeType × Bytes)) (k : ℕ) (hk : k ≤ (fileOf rs).length) :
    ∃ j p, (fileOf rs).take k = fileOf (rs.take j) ++ p ∧
      (p = [] ∨ ∃ r, rs[j]? = some r ∧ p <+: record r.1 r.2 ∧ p ≠ record r.1 r.2) := by
  rw [fileOf_eq_flatten] at hk
  obtain ⟨j, p, htake, hp⟩ := cut_flatten _ k hk
  refine ⟨j, p, by rw [fileOf_eq_flatten, htake, fileOf_eq_flatten, List.map_take], ?_⟩
  refine hp.imp id ?_
  rintro ⟨f, hf, hpre, hne⟩
  rw [List.head?_drop, List.getElem?_map] at hf
  obtain ⟨r, hr, rfl⟩ := Option.map_eq_some_iff.mp hf
  exact ⟨r, hr, hpre, hne⟩

/-- More records make a longer file. -/
theorem length_fileOf_take_le (rs : List (MsgNodeType × Bytes)) {i j : ℕ} (h : i ≤ j) :
    (fileOf (rs.take i)).length ≤ (fileOf (rs.take j)).length := by
  have hpre : rs.take j = rs.take i ++ (rs.take j).drop i := by
    have h1 := (List.take_append_drop i (rs.take j)).symm
    rwa [List.take_take, Nat.min_eq_left h] at h1
  rw [hpre, fileOf_append, List.length_append]
  omega

/-- The longest record prefix of at most `k` bytes. -/
def LongestPrefix (rs : List (MsgNodeType × Bytes)) (k j : ℕ) : Prop :=
  (fileOf (rs.take j)).length ≤ k ∧
    ∀ i, (fileOf (rs.take i)).length ≤ k → (fileOf (rs.take i)).length ≤ (fileOf (rs.take j)).length

/-- The loader when it has opened the file. -/
def Loader.start (d : Db α) : Loader α := ⟨{ d with isLoading := true }, none, [], 0, []⟩

/-- The loader when it is done. -/
def Loader.finish (s : Loader α) : Loader α := { s with db := { s.db with isLoading := false } }

omit [LinearOrder α] [Neg α] [One α] in
theorem length_le_length_fileOf : ∀ rs : List (MsgNodeType × Bytes), rs.length ≤ (fileOf rs).length
  | [] => Nat.zero_le _
  | r :: rs => by
      have := record_length_pos r
      have := length_le_length_fileOf rs
      rw [fileOf_cons, List.length_append, List.length_cons]
      omega

/-- Loading a file that begins with complete records. -/
theorem checkDbFileAndLoad_append (c : Codecs α) (heights : ℕ → Lvl)
    {rs : List (MsgNodeType × Bytes)} (hok : ∀ r ∈ rs, BodyOk r.2) (rest : Bytes) (d : Db α) :
    checkDbFileAndLoad c heights (some (fileOf rs ++ rest)) d =
      (loadRecords c heights rs (.start d)).bind fun s =>
        (loadLoop c heights ((fileOf rs).length - rs.length + rest.length + 1)
          { s with file := rest }).map fun r => (r.1, r.2.finish) := by
  have hfuel : (fileOf rs ++ rest).length + 1 =
      rs.length + ((fileOf rs).length - rs.length + rest.length + 1) := by
    have := length_le_length_fileOf rs
    rw [List.length_append]
    omega
  have hrun := loadLoop_records c heights rs hok
    ((fileOf rs).length - rs.length + rest.length + 1) (.start d) rest
  rw [← hfuel] at hrun
  simp only [Loader.start] at hrun
  simp only [checkDbFileAndLoad, hrun, Loader.start]
  cases loadRecords c heights rs _ with
  | none => rfl
  | some s =>
      simp only [Option.bind_some]
      cases loadLoop c heights _ { s with file := rest } <;> rfl

/-- Loading a file of complete records. -/
theorem checkDbFileAndLoad_records (c : Codecs α) (heights : ℕ → Lvl)
    {rs : List (MsgNodeType × Bytes)} (hok : ∀ r ∈ rs, BodyOk r.2) (d : Db α) :
    checkDbFileAndLoad c heights (some (fileOf rs)) d =
      (loadRecords c heights rs (.start d)).map fun s =>
        (0, Loader.finish { s with file := [] }) := by
  have h := checkDbFileAndLoad_append c heights hok [] d
  rw [List.append_nil] at h
  rw [h]
  cases loadRecords c heights rs (.start d) <;> rfl

/-- Loading the first bytes of a file loads the longest record prefix; of a record that
is cut off, the type byte is all that is read with success. -/
theorem load_take (c : Codecs α) (heights : ℕ → Lvl) {rs : List (MsgNodeType × Bytes)}
    (hok : ∀ r ∈ rs, BodyOk r.2) {k : ℕ} (hk : k ≤ (fileOf rs).length) {d : Db α} (hd : d.Ok) :
    ∃ j s s', LongestPrefix rs k j ∧
      checkDbFileAndLoad c heights (some ((fileOf rs).take k)) d = some (0, s) ∧
      checkDbFileAndLoad c heights (some (fileOf (rs.take j))) d = some (0, s') ∧
      s.db = s'.db ∧ s.db.isLoading = false ∧
      s'.reads = (rs.take j).map (fun r => (r.1, some r.2)) ∧
      (((fileOf (rs.take j)).length = k ∧ s.reads = s'.reads) ∨
        ∃ r, rs[j]? = some r ∧ (fileOf (rs.take j)).length < k ∧
          s.reads = s'.reads ++ [(r.1, none)]) := by
  obtain ⟨j, p, htake, hp⟩ := take_fileOf rs k hk
  have hlen : (fileOf (rs.take j)).length + p.length = k := by
    have h := congrArg List.length htake
    rw [List.length_take, List.length_append] at h
    omega
  have hokj : ∀ r ∈ rs.take j, BodyOk r.2 := fun r hr => hok r (List.mem_of_mem_take hr)
  obtain ⟨s0, hrecs, _, hreads⟩ := loadRecords_ok c heights (rs.take j) hokj (.start d)
    ⟨hd, fun _ h => by cases h⟩
  have hwhole := checkDbFileAndLoad_records c heights hokj d
  rw [hrecs, Option.map_some] at hwhole
  have hload := checkDbFileAndLoad_append c heights hokj p d
  rw [hrecs, Option.bind_some, ← htake] at hload
  by_cases hp0 : p = []
  · -- the cut is between two records
    subst hp0
    rw [List.length_nil, Nat.add_zero] at hlen
    exact ⟨j, _, _, ⟨Nat.le_of_eq hlen, fun i hi => by omega⟩, hload, hwhole, rfl, rfl,
      by simpa [Loader.start, Loader.finish] using hreads, Or.inl ⟨hlen, rfl⟩⟩
  · -- the cut is inside record `j`
    obtain ⟨r, hr, hpre, hne⟩ := hp.resolve_left hp0
    have hb := hok r (List.mem_of_getElem? hr)
    have hplt : p.length < (record r.1 r.2).length :=
      Nat.lt_of_le_of_ne hpre.length_le fun heq => hne (hpre.eq_of_length heq)
    obtain ⟨b, q, rfl⟩ : ∃ b q, p = b :: q := List.exists_cons_of_ne_nil hp0
    have hcons : b :: q <+: r.1.toByte :: recordTail r.2 := hpre
    obtain ⟨rfl, hq⟩ := List.cons_prefix_cons.mp hcons
    have hqne : q ≠ recordTail r.2 := fun heq => hne (by rw [heq]; rfl)
    have hround : ∀ n, loadLoop c heights (n + 1 + 1) { s0 with file := r.1.toByte :: q } =
        some (0, { s0 with file := [], reads := s0.reads ++ [(r.1, none)] }) := by
      intro n
      rw [loadLoop]
      simp only [loadType_cons, ofByte_toByte]
      rw [loadRecord_cut c heights r.1 hb hq hqne s0]
      rfl
    rw [List.length_cons, ← Nat.add_assoc, hround, Option.map_some] at hload
    refine ⟨j, _, _, ⟨by omega, fun i hi => ?_⟩, hload, hwhole, rfl, rfl,
      by simpa [Loader.start, Loader.finish] using hreads, Or.inr ⟨r, hr, ?_, rfl⟩⟩
    · rcases Nat.lt_or_ge j i with hij | hij
      · have hnext := length_fileOf_take_le rs hij
        rw [List.take_add_one, hr, Option.toList_some, fileOf_append, List.length_append] at hnext
        have hone : (fileOf [r]).length = (record r.1 r.2).length := by
          rw [fileOf_cons]; simp [fileOf]
        rw [List.length_cons] at hlen hplt
        omega
      · exact length_fileOf_take_le rs hij
    · rw [List.length_cons] at hlen
      omega

/-! ## Saved files -/

omit [LinearOrder α] [Neg α] [One α] in
/-- The records of a database that was written have bodies. -/
theorem bodyOk_dbRecords (c : Codecs α) (env : SaveEnv) (now : Bytes)
    (l : List (Bytes × SortSet α Bytes)) (hhead : HeaderSaved c env now)
    (htab : ∀ e ∈ l, TableWritten c env e) : ∀ r ∈ dbRecords c now l, BodyOk r.2 := by
  intro r hr
  rcases List.mem_cons.mp hr with rfl | hr
  · exact ⟨hhead.1.1.1, c.version.size_lt _⟩
  · rcases List.mem_cons.mp hr with rfl | hr
    · exact ⟨hhead.2.1.1, c.db.size_lt _⟩
    · obtain ⟨e, he, hr⟩ := List.mem_flatMap.mp hr
      rcases List.mem_cons.mp hr with rfl | hr
      · exact ⟨(htab e he).1.1, c.table.size_lt _⟩
      · obtain ⟨g, hg, rfl⟩ := List.mem_map.mp hr
        obtain ⟨i, hi⟩ := List.mem_iff_getElem?.mp hg
        exact ⟨((htab e he).2.2 i g hi).1, c.key.size_lt _⟩

/-- A save that answers `0` without a logged error leaves the complete file. -/
theorem saveToFile_complete (c : Codecs α) (env : SaveEnv) (now : Bytes) {d : Db α} (h : d.Ok)
    (order : { l : List (Bytes × SortSet α Bytes) // l.Perm d.dbDict.entries }) (files : Files)
    {files' : Files} (hsave : saveToFile c env now d order files = some (0, [], files')) :
    files'.dbFile = some (fileOf (dbRecords c now order.val)) ∧
      ∀ r ∈ dbRecords c now order.val, BodyOk r.2 := by
  rcases saveToFile_spec c env now h order files with
    ⟨_, errs, files'', hrun, _⟩ | ⟨_, _, _, hrun⟩ |
      ⟨_, hhead, _, ret, content, errs, files'', hrun, hpart, herrs, hfin⟩
  · rw [hrun] at hsave
    simp at hsave
  · rw [hrun] at hsave
    cases hsave
  · rw [hrun] at hsave
    simp only [Option.some.injEq, Prod.mk.injEq] at hsave
    obtain ⟨rfl, rfl, rfl⟩ := hsave
    have htab := herrs rfl
    rcases hfin with ⟨_, _, hfile⟩ | ⟨_, hret, _⟩
    · refine ⟨by rw [hfile, hpart.all htab], bodyOk_dbRecords c env now _ hhead fun e he => ?_⟩
      exact htab e (order.property.mem_iff.mp he)
    · cases hret

/-- **Truncation.** The first `k` bytes of a file that a save without errors has written,
of any database a run can reach, load into an empty database as the longest record prefix
of at most `k` bytes does. `reads` lists the records of that prefix, and after them, when
the cut is inside a record, the type byte of that record with no string. -/
theorem load_truncated (c : Codecs α) (ops : List (DbOp α)) {d : Db α}
    (hd : run (DbOp.step c) ops Db.new = some d) (env : SaveEnv) (now : Bytes)
    (order : { l : List (Bytes × SortSet α Bytes) // l.Perm d.dbDict.entries })
    (files files' : Files) (hsave : saveToFile c env now d order files = some (0, [], files'))
    (F : Bytes) (hF : files'.dbFile = some F) (k : ℕ) (hk : k ≤ F.length) (heights : ℕ → Lvl) :
    F = fileOf (dbRecords c now order.val) ∧
      ∃ j s s', LongestPrefix (dbRecords c now order.val) k j ∧
        checkDbFileAndLoad c heights (some (F.take k)) Db.new = some (0, s) ∧
        checkDbFileAndLoad c heights (some (fileOf ((dbRecords c now order.val).take j))) Db.new =
          some (0, s') ∧
        s.db = s'.db ∧ s.db.isLoading = false ∧
        s'.reads = ((dbRecords c now order.val).take j).map (fun r => (r.1, some r.2)) ∧
        (((fileOf ((dbRecords c now order.val).take j)).length = k ∧ s.reads = s'.reads) ∨
          ∃ r, (dbRecords c now order.val)[j]? = some r ∧
            (fileOf ((dbRecords c now order.val).take j)).length < k ∧
            s.reads = s'.reads ++ [(r.1, none)]) := by
  obtain ⟨d', hrun, h⟩ := run_ok c ops
  obtain rfl : d = d' := Option.some.inj (hd.symm.trans hrun)
  obtain ⟨hfile, hok⟩ := saveToFile_complete c env now h order files hsave
  obtain rfl : F = fileOf (dbRecords c now order.val) := Option.some.inj (hF.symm.trans hfile)
  exact ⟨rfl, load_take c heights hok hk dbOk_new⟩

/-- Every file operation succeeds. -/
def SaveEnv.allOk : SaveEnv := ⟨true, fun _ _ => .ok, true, true, true, true⟩

/-- The file of the database with one table, cut off inside the length of its KEY record. -/
theorem load_truncated_oneTable :
    ∃ d F j s s', run (DbOp.step oneTable) [.insert ⟨1, by decide⟩ (ascii "k") 1 (ascii "m")]
        Db.new = some d ∧
      F = fileOf (dbRecords oneTable epoch d.dbDict.entries) ∧ F.length = 73 ∧
      LongestPrefix (dbRecords oneTable epoch d.dbDict.entries) 59 j ∧
      checkDbFileAndLoad oneTable (fun _ => ⟨1, by decide⟩) (some (F.take 59)) Db.new =
        some (0, s) ∧
      checkDbFileAndLoad oneTable (fun _ => ⟨1, by decide⟩)
        (some (fileOf ((dbRecords oneTable epoch d.dbDict.entries).take j))) Db.new =
          some (0, s') ∧
      s.db = s'.db ∧ s.db.isLoading = false := by
  have hrun : (run (DbOp.step oneTable) [.insert ⟨1, by decide⟩ (ascii "k") 1 (ascii "m")]
      Db.new).any (fun d => decide (((saveToFile oneTable .allOk epoch d
        ⟨d.dbDict.entries, List.Perm.refl _⟩ ⟨none, none⟩).map fun r =>
          (r.1, r.2.1, r.2.2.dbFile.map List.length)) = some (0, [], some 73))) = true := by
    decide +kernel
  obtain ⟨d, hd, hsave⟩ := (Option.any_eq_true _ _).mp hrun
  obtain ⟨⟨ret, errs, files'⟩, hsave, heq⟩ := Option.map_eq_some_iff.mp (of_decide_eq_true hsave)
  simp only [Prod.mk.injEq] at heq
  obtain ⟨rfl, rfl, hlen⟩ := heq
  obtain ⟨F, hF, hlen⟩ := Option.map_eq_some_iff.mp hlen
  obtain ⟨hfile, j, s, s', hlong, hload, hload', hdb, hflag, _⟩ := load_truncated oneTable _ hd
    .allOk epoch ⟨d.dbDict.entries, List.Perm.refl _⟩ ⟨none, none⟩ files' hsave F hF 59 (by omega)
    (fun _ => ⟨1, by decide⟩)
  exact ⟨d, F, j, s, s', hd, hfile, hlen, hlong, hload, hload', hdb, hflag⟩

end LibC
