/-
LibC.Server.SaveTheorems — what `SaveToFile` leaves behind.

`dbRecords` is the record sequence of a complete file: version, database, and
for each table its TABLE record followed by KEY records of up to fifty members
that cover its members in order (`groupsOf_flatten`).

The proof follows the bytes. A call of `SaveObj`, a group, a table and the loop
over the tables each add some bytes to the stream; when everything went well
these are the full records, and otherwise they are fewer (`Adds`). Lengths then
decide whether the file that is renamed is complete, since a missing record
cannot be made up for by another one.

`saveToFile_spec` is the outcome of a save, and `saveToFile_allOrNothing_iff`
says exactly when a save is all or nothing.

No `sorry`, no `axiom`, no `native_decide`.
-/
import LibC.Server.DbTheorems

namespace LibC

open LibC.Lib

variable {α : Type} [LinearOrder α] [Neg α] [One α]

/-! ## The complete file -/

/-- The members in groups of fifty, and what is left over; `acc` is the group that has
been begun. -/
def groupsOf {δ : Type} : List δ → List δ → List (List δ)
  | [], [] => []
  | a :: acc, [] => [a :: acc]
  | acc, m :: rest =>
      if (acc.length + 1) % 50 = 0 then (acc ++ [m]) :: groupsOf [] rest
      else groupsOf (acc ++ [m]) rest

/-- The groups cover the members, in order. -/
theorem groupsOf_flatten {δ : Type} : ∀ (acc ms : List δ), (groupsOf acc ms).flatten = acc ++ ms
  | [], [] => by simp [groupsOf]
  | a :: acc, [] => by simp [groupsOf]
  | acc, m :: rest => by
      rw [groupsOf]
      split
      · rw [List.flatten_cons, groupsOf_flatten [] rest]; simp
      · rw [groupsOf_flatten (acc ++ [m]) rest]; simp

/-- No group is empty. -/
theorem groupsOf_ne_nil {δ : Type} : ∀ (acc ms : List δ), ∀ g ∈ groupsOf acc ms, g ≠ []
  | [], [], g, h => by simp [groupsOf] at h
  | a :: acc, [], g, h => by
      rw [groupsOf, List.mem_singleton] at h
      rw [h]; simp
  | acc, m :: rest, g, h => by
      rw [groupsOf] at h
      split at h
      · rcases List.mem_cons.mp h with rfl | h
        · simp
        · exact groupsOf_ne_nil [] rest g h
      · exact groupsOf_ne_nil (acc ++ [m]) rest g h

/-- The message of a group of members. -/
def keyMsg (g : List (α × Bytes)) : MsgDbKey α := ⟨g.map Prod.fst, g.map Prod.snd⟩

/-- The message of a table. -/
def tableMsg (key : Bytes) (s : SortSet α Bytes) : MsgDbTable := ⟨key, s.size.toUInt64⟩

/-- The records of a table. -/
def tableRecords (c : Codecs α) (e : Bytes × SortSet α Bytes) : List (MsgNodeType × Bytes) :=
  (.table, c.table.serializeAsString (tableMsg e.1 e.2)) ::
    (groupsOf [] e.2.members).map fun g => (.key, c.key.serializeAsString (keyMsg g))

/-- The records of a database. -/
def dbRecords (c : Codecs α) (now : Bytes) (l : List (Bytes × SortSet α Bytes)) :
    List (MsgNodeType × Bytes) :=
  (.version, c.version.serializeAsString (dbVer now)) :: (.db, c.db.serializeAsString db1) ::
    l.flatMap (tableRecords c)

/-- The bytes of a list of records. -/
def fileOf (rs : List (MsgNodeType × Bytes)) : Bytes := rs.flatMap fun r => record r.1 r.2

theorem fileOf_cons (r : MsgNodeType × Bytes) (rs : List (MsgNodeType × Bytes)) :
    fileOf (r :: rs) = record r.1 r.2 ++ fileOf rs := List.flatMap_cons

theorem fileOf_append (rs rs' : List (MsgNodeType × Bytes)) :
    fileOf (rs ++ rs') = fileOf rs ++ fileOf rs' := List.flatMap_append

/-! ## Bytes added to the stream -/

/-- `part` is what was added where `full` should be: all of it when things went well, and
less otherwise. -/
structure Part (part full : Bytes) (good : Prop) : Prop where
  all : good → part = full
  short : ¬ good → part.length < full.length

theorem Part.le {part full : Bytes} {good : Prop} (h : Part part full good) :
    part.length ≤ full.length := by
  by_cases hg : good
  · rw [h.all hg]
  · exact Nat.le_of_lt (h.short hg)

theorem Part.eq_iff {part full : Bytes} {good : Prop} (h : Part part full good) :
    part = full ↔ good := by
  refine ⟨fun heq => ?_, h.all⟩
  by_contra hg
  have := h.short hg
  rw [heq] at this
  omega

theorem Part.append {p p' f f' : Bytes} {g g' : Prop} (h : Part p f g) (h' : Part p' f' g') :
    Part (p ++ p') (f ++ f') (g ∧ g') := by
  refine ⟨fun hg => by rw [h.all hg.1, h'.all hg.2], fun hg => ?_⟩
  have h1 := h.le
  have h2 := h'.le
  rw [List.length_append, List.length_append]
  by_cases hgood : g
  · have := h'.short fun hg' => hg ⟨hgood, hg'⟩
    omega
  · have := h.short hgood
    omega

/-- From `s` to `s'` the saver added what should be `full`; without a logged error, all
of it. -/
def Adds (s s' : Saver) (full : Bytes) (good : Prop) : Prop :=
  ∃ part errs, s'.content = s.content ++ part ∧ s'.errors = s.errors ++ errs ∧
    Part part full good ∧ (errs = [] → good)

theorem Adds.refl (s : Saver) : Adds s s [] True :=
  ⟨[], [], by simp, by simp, ⟨fun _ => rfl, fun h => absurd trivial h⟩, fun _ => trivial⟩

theorem Adds.trans {s s' s'' : Saver} {f f' : Bytes} {g g' : Prop} (h : Adds s s' f g)
    (h' : Adds s' s'' f' g') : Adds s s'' (f ++ f') (g ∧ g') := by
  obtain ⟨p, e, hc, he, hp, hg⟩ := h
  obtain ⟨p', e', hc', he', hp', hg'⟩ := h'
  refine ⟨p ++ p', e ++ e', by rw [hc', hc, List.append_assoc], by rw [he', he, List.append_assoc],
    hp.append hp', fun hnil => ?_⟩
  obtain ⟨h1, h2⟩ := List.append_eq_nil_iff.mp hnil
  exact ⟨hg h1, hg' h2⟩

theorem Adds.congr {s s' : Saver} {f f' : Bytes} {g g' : Prop} (h : Adds s s' f g) (hf : f = f')
    (hg : g ↔ g') : Adds s s' f' g' := by
  subst hf
  rwa [show g' = g from propext hg.symm]

/-- `SaveObj` answers no error: the record is stored, and its size fits in an `int`. -/
def Saved (env : SaveEnv) (id : RecId) (body : Bytes) : Prop :=
  Written (env.write id) body ∧ FitsInt body

omit [LinearOrder α] [Neg α] [One α] in
/-- One record. -/
theorem saveRecord_spec {M : Type} (c : Codec M) (env : SaveEnv) (id : RecId) (obj : M)
    (type : MsgNodeType) (s : Saver) :
    ∃ ret s' part errs, saveRecord c env id obj type s = (ret, s') ∧
      s'.content = s.content ++ part ∧ s'.errors = s.errors ++ errs ∧
      Part part (record type (c.serializeAsString obj))
        (Written (env.write id) (c.serializeAsString obj)) ∧
      (0 ≤ ret ↔ Saved env id (c.serializeAsString obj)) ∧ (errs = [] ↔ 0 ≤ ret) := by
  obtain ⟨ret, w, part, hsave, hc, hpre, hiff, hret⟩ :=
    saveObj_spec c (env.write id) obj type s.content
  refine ⟨ret, ⟨w.content, if ret < 0 then s.errors ++ [id] else s.errors⟩, part,
    if ret < 0 then [id] else [], by simp [saveRecord, hsave], hc, by simp only; split <;> simp,
    ⟨hiff.mpr, fun hg => ?_⟩, hret, ?_⟩
  · exact Nat.lt_of_le_of_ne hpre.length_le fun heq => hg (hiff.mp (hpre.eq_of_length heq))
  · split
    · simp only [List.cons_ne_nil, false_iff]; omega
    · simp only [true_iff]; omega

omit [LinearOrder α] [Neg α] [One α] in
/-- One record, in the stream. -/
theorem saveRecord_adds {M : Type} (c : Codec M) (env : SaveEnv) (id : RecId) (obj : M)
    (type : MsgNodeType) (s : Saver) :
    ∃ ret s', saveRecord c env id obj type s = (ret, s') ∧
      Adds s s' (record type (c.serializeAsString obj))
        (Written (env.write id) (c.serializeAsString obj)) ∧
      (0 ≤ ret ↔ Saved env id (c.serializeAsString obj)) := by
  obtain ⟨ret, s', part, errs, hsave, hc, he, hp, hret, herrs⟩ :=
    saveRecord_spec c env id obj type s
  exact ⟨ret, s', hsave, ⟨part, errs, hc, he, hp, fun h => (hret.mp (herrs.mp h)).1⟩, hret⟩

/-! ## The groups of a table -/

/-- The groups from the `i`-th on are stored. -/
def GroupsWritten (c : Codecs α) (env : SaveEnv) (key : Bytes) (i : ℕ)
    (gs : List (List (α × Bytes))) : Prop :=
  ∀ j g, gs[j]? = some g →
    Written (env.write (.key key (i + j))) (c.key.serializeAsString (keyMsg g))

omit [LinearOrder α] [Neg α] [One α] in
theorem groupsWritten_cons {c : Codecs α} {env : SaveEnv} {key : Bytes} {i : ℕ}
    {g : List (α × Bytes)} {gs : List (List (α × Bytes))} :
    GroupsWritten c env key i (g :: gs) ↔
      Written (env.write (.key key i)) (c.key.serializeAsString (keyMsg g)) ∧
        GroupsWritten c env key (i + 1) gs := by
  constructor
  · intro h
    refine ⟨h 0 g rfl, fun j g' hj => ?_⟩
    have := h (j + 1) g' hj
    rwa [show i + (j + 1) = i + 1 + j by omega] at this
  · rintro ⟨h0, h⟩ j g' hj
    rcases j with _ | j
    · cases hj; exact h0
    · have := h j g' hj
      rwa [show i + 1 + j = i + (j + 1) by omega] at this

/-- The bytes of the KEY records of some groups. -/
def groupsFile (c : Codecs α) (gs : List (List (α × Bytes))) : Bytes :=
  fileOf (gs.map fun g => (.key, c.key.serializeAsString (keyMsg g)))

omit [LinearOrder α] [Neg α] [One α] in
theorem groupsFile_cons (c : Codecs α) (g : List (α × Bytes)) (gs : List (List (α × Bytes))) :
    groupsFile c (g :: gs) = record .key (c.key.serializeAsString (keyMsg g)) ++ groupsFile c gs :=
  fileOf_cons _ _

omit [LinearOrder α] [Neg α] [One α] in
/-- The loop over the members stores the groups. -/
theorem saveKeys_spec (c : Codecs α) (env : SaveEnv) (key : Bytes) :
    ∀ (nodes : List (SkipListNode α Bytes)) (acc : List (α × Bytes)) (i : ℕ) (s : Saver),
      Adds s (saveKeys c.key env key i acc.length (keyMsg acc) nodes s)
        (groupsFile c (groupsOf acc (nodes.map fun nd => (nd.score, nd.val))))
        (GroupsWritten c env key i (groupsOf acc (nodes.map fun nd => (nd.score, nd.val)))) := by
  intro nodes
  induction nodes with
  | nil =>
      intro acc i s
      cases acc with
      | nil =>
          refine (Adds.refl s).congr rfl ⟨fun _ j g hj => ?_, fun _ => trivial⟩
          simp [groupsOf] at hj
      | cons a acc =>
          obtain ⟨ret, s', hsave, hadds, _⟩ :=
            saveRecord_adds c.key env (.key key i) (keyMsg (a :: acc)) .key s
          have hrun : saveKeys c.key env key i (a :: acc).length (keyMsg (a :: acc)) [] s = s' := by
            rw [saveKeys, if_pos ⟨by simp [keyMsg], by simp [keyMsg]⟩, hsave]
          rw [hrun]
          refine hadds.congr ?_ ?_
          · rw [List.map_nil, groupsOf, groupsFile_cons]
            exact (List.append_nil _).symm
          · rw [List.map_nil, groupsOf, groupsWritten_cons]
            exact ⟨fun h => ⟨h, fun j g hj => by simp at hj⟩, And.left⟩
  | cons nd rest ih =>
      intro acc i s
      have hkvs : (⟨(keyMsg acc).key ++ [nd.score], (keyMsg acc).val ++ [nd.val]⟩ : MsgDbKey α) =
          keyMsg (acc ++ [(nd.score, nd.val)]) := by simp [keyMsg]
      rw [List.map_cons, groupsOf]
      by_cases h50 : (acc.length + 1) % 50 = 0
      · -- a full group
        obtain ⟨ret, s1, hsave, hadds, _⟩ :=
          saveRecord_adds c.key env (.key key i) (keyMsg (acc ++ [(nd.score, nd.val)])) .key s
        have hrun : saveKeys c.key env key i acc.length (keyMsg acc) (nd :: rest) s =
            saveKeys c.key env key (i + 1) 0 ⟨[], []⟩ rest s1 := by
          rw [saveKeys, hkvs, if_pos h50, hsave]
        rw [if_pos h50, hrun]
        exact (hadds.trans (ih [] (i + 1) s1)).congr (groupsFile_cons _ _ _).symm
          groupsWritten_cons.symm
      · have hrun : saveKeys c.key env key i acc.length (keyMsg acc) (nd :: rest) s =
            saveKeys c.key env key i (acc ++ [(nd.score, nd.val)]).length
              (keyMsg (acc ++ [(nd.score, nd.val)])) rest s := by
          rw [saveKeys, hkvs, if_neg h50, List.length_append, List.length_singleton]
        rw [if_neg h50, hrun]
        exact ih _ i s

/-! ## The tables -/

/-- The iteration over the members of a table without members. -/
def Faults (c : Codecs α) (env : SaveEnv) (e : Bytes × SortSet α Bytes) : Prop :=
  e.2.members = [] ∧ Saved env (.table e.1) (c.table.serializeAsString (tableMsg e.1 e.2))

/-- The records of a table are stored: the TABLE record, which must fit in an `int` unless
there are no members to go on with, and every group. -/
def TableWritten (c : Codecs α) (env : SaveEnv) (e : Bytes × SortSet α Bytes) : Prop :=
  Written (env.write (.table e.1)) (c.table.serializeAsString (tableMsg e.1 e.2)) ∧
    (e.2.members = [] ∨ FitsInt (c.table.serializeAsString (tableMsg e.1 e.2))) ∧
    GroupsWritten c env e.1 0 (groupsOf [] e.2.members)

omit [LinearOrder α] [Neg α] [One α] in
theorem tableRecords_file (c : Codecs α) (e : Bytes × SortSet α Bytes) :
    fileOf (tableRecords c e) = record .table (c.table.serializeAsString (tableMsg e.1 e.2)) ++
      groupsFile c (groupsOf [] e.2.members) := fileOf_cons _ _

/-- The body of the loop over the tables. -/
theorem saveTable_spec (c : Codecs α) (env : SaveEnv) {e : Bytes × SortSet α Bytes}
    (h : TableOk e.2) (s : Saver) :
    (Faults c env e ∧ saveTable c env e.1 e.2 s = none) ∨
      (¬ Faults c env e ∧ ∃ s', saveTable c env e.1 e.2 s = some s' ∧
        Adds s s' (fileOf (tableRecords c e)) (TableWritten c env e)) := by
  obtain ⟨ps, ts, h⟩ := h
  have hmem : e.2.members = ts.map fun t => (t.score, t.val) := h.repr.pairs_eq
  obtain ⟨ret, s1, part, errs, hsave, hc, he, hp, hret, herrs⟩ :=
    saveRecord_spec c.table env (.table e.1) (tableMsg e.1 e.2) .table s
  have hsave' : saveRecord c.table env (.table e.1) ⟨e.1, e.2.size.toUInt64⟩ .table s = (ret, s1) :=
    hsave
  rw [tableRecords_file]
  by_cases hneg : ret < 0
  · -- the members are skipped
    have hnot : ¬ Saved env (.table e.1) (c.table.serializeAsString (tableMsg e.1 e.2)) :=
      fun hs => by have := hret.mpr hs; omega
    have hgroups : e.2.members = [] → groupsFile c (groupsOf [] e.2.members) = [] := fun h0 => by
      rw [h0]; rfl
    refine Or.inr ⟨fun hf => hnot hf.2, s1, ?_, part, errs, hc, he, ⟨fun hgood => ?_,
      fun hbad => ?_⟩, fun hnil => absurd (herrs.mp hnil) (by omega)⟩
    · simp only [saveTable, hsave', hneg, if_true]
    · -- nothing is missing only when there are no members
      have hnone : e.2.members = [] := by
        rcases hgood.2.1 with h0 | h0
        · exact h0
        · exact absurd ⟨hgood.1, h0⟩ hnot
      rw [hp.all hgood.1, hgroups hnone, List.append_nil]
    · rw [List.length_append]
      by_cases hw : Written (env.write (.table e.1)) (c.table.serializeAsString (tableMsg e.1 e.2))
      · have hsome : e.2.members ≠ [] := fun h0 => by
          refine hbad ⟨hw, Or.inl h0, fun j g hj => ?_⟩
          rw [h0] at hj
          simp [groupsOf] at hj
        have hpos : 0 < (groupsFile c (groupsOf [] e.2.members)).length := by
          cases hgs : groupsOf [] e.2.members with
          | nil =>
              have := groupsOf_flatten [] e.2.members
              rw [hgs] at this
              exact absurd this.symm hsome
          | cons g gs => simp [groupsFile_cons, record]
        rw [hp.all hw]
        omega
      · have := hp.short hw
        omega
  · have hs : Saved env (.table e.1) (c.table.serializeAsString (tableMsg e.1 e.2)) :=
      hret.mp (by omega)
    have hrun : saveTable c env e.1 e.2 s = (do
        let begin ← e.2.sl.being
        let nodes ← e.2.sl.iterate (e.2.sl.heap.size + 1) begin
        some (saveKeys c.key env e.1 0 0 ⟨[], []⟩ nodes s1)) := by
      simp only [saveTable, hsave', hneg, if_false]
    by_cases hts : ts = []
    · have hnone : e.2.members = [] := by rw [hmem, hts]; rfl
      refine Or.inl ⟨⟨hnone, hs⟩, ?_⟩
      rw [hrun, h.repr.being_nil hts]
      rfl
    · have hsome : e.2.members ≠ [] := by
        rw [hmem]; simpa using hts
      obtain ⟨begin, hbegin, hiter⟩ := h.repr.iterate_spec hts
      refine Or.inr ⟨fun hf => hsome hf.1,
        saveKeys c.key env e.1 0 0 ⟨[], []⟩ e.2.sl.nodes s1, ?_, ?_⟩
      · rw [hrun, hbegin]
        simp [hiter]
      · have hadds : Adds s s1 _ _ := ⟨part, errs, hc, he, hp, fun h => (hret.mp (herrs.mp h)).1⟩
        refine (hadds.trans (saveKeys_spec c env e.1 e.2.sl.nodes [] 0 s1)).congr rfl ?_
        exact ⟨fun hg => ⟨hg.1, Or.inr hs.2, hg.2⟩, fun hg => ⟨hg.1, hg.2.2⟩⟩

/-- The loop over the tables. -/
theorem saveTables_spec (c : Codecs α) (env : SaveEnv) : ∀ (l : List (Bytes × SortSet α Bytes)),
    (∀ e ∈ l, TableOk e.2) → ∀ s : Saver,
    ((∃ e ∈ l, Faults c env e) ∧ saveTables c env l s = none) ∨
      ((∀ e ∈ l, ¬ Faults c env e) ∧ ∃ s', saveTables c env l s = some s' ∧
        Adds s s' (fileOf (l.flatMap (tableRecords c))) (∀ e ∈ l, TableWritten c env e))
  | [], _, s => Or.inr ⟨by simp, s, rfl, (Adds.refl s).congr rfl (by simp)⟩
  | e :: rest, hok, s => by
      rcases saveTable_spec c env (hok e (List.mem_cons_self ..)) s with
        ⟨hf, hrun⟩ | ⟨hf, s1, hrun, hadds⟩
      · exact Or.inl ⟨⟨e, List.mem_cons_self .., hf⟩, by simp [saveTables, hrun]⟩
      · rcases saveTables_spec c env rest
          (fun e' he' => hok e' (List.mem_cons_of_mem _ he')) s1 with
          ⟨⟨e', he', hf'⟩, hrun'⟩ | ⟨hf', s2, hrun', hadds'⟩
        · exact Or.inl ⟨⟨e', List.mem_cons_of_mem _ he', hf'⟩, by simp [saveTables, hrun, hrun']⟩
        · refine Or.inr ⟨List.forall_mem_cons.mpr ⟨hf, hf'⟩, s2, by simp [saveTables, hrun, hrun'],
            (hadds.trans hadds').congr ?_ List.forall_mem_cons.symm⟩
          rw [List.flatMap_cons, fileOf_append]

/-! ## `SaveToFile` -/

/-- The calls after the last record all succeed. -/
def SaveEnv.Finishes (env : SaveEnv) : Prop :=
  env.flushOk = true ∧ env.fsyncOk = true ∧ env.closeOk = true ∧ env.renameOk = true

/-- VERSION and DB record are written. -/
def HeaderSaved (c : Codecs α) (env : SaveEnv) (now : Bytes) : Prop :=
  Saved env .version (c.version.serializeAsString (dbVer now)) ∧
    Saved env .db (c.db.serializeAsString db1)

/-- The calls after the last record: the file is replaced when all of them succeed, and is what
it was when one fails. -/
theorem finish_spec (env : SaveEnv) (s : Saver) (files : Files) : ∃ ret files',
    (if ¬ env.flushOk ∨ ¬ env.fsyncOk ∨ ¬ env.closeOk then
      some ((-1 : ℤ), s.errors, { files with tmpFile := some s.content })
    else if ¬ env.renameOk then some (-1, s.errors, { files with tmpFile := none })
    else some (0, s.errors, ⟨some s.content, none⟩)) = some (ret, s.errors, files') ∧
      ((env.Finishes ∧ ret = 0 ∧ files'.dbFile = some s.content) ∨
        (¬ env.Finishes ∧ ret = -1 ∧ files'.dbFile = files.dbFile)) := by
  by_cases h1 : ¬ env.flushOk ∨ ¬ env.fsyncOk ∨ ¬ env.closeOk
  · rw [if_pos h1]
    refine ⟨-1, _, rfl, Or.inr ⟨?_, rfl, rfl⟩⟩
    rintro ⟨f1, f2, f3, _⟩
    rcases h1 with h1 | h1 | h1
    · exact h1 f1
    · exact h1 f2
    · exact h1 f3
  · rw [if_neg h1]
    by_cases h2 : ¬ env.renameOk
    · rw [if_pos h2]
      exact ⟨-1, _, rfl, Or.inr ⟨fun hfin => h2 hfin.2.2.2, rfl, rfl⟩⟩
    · rw [if_neg h2]
      refine ⟨0, _, rfl, Or.inl ⟨⟨?_, ?_, ?_, ?_⟩, rfl, rfl⟩⟩
      · exact not_not.mp fun h => h1 (Or.inl h)
      · exact not_not.mp fun h => h1 (Or.inr (Or.inl h))
      · exact not_not.mp fun h => h1 (Or.inr (Or.inr h))
      · exact not_not.mp h2

/-- The outcome of a save. Either it ends early; or it faults in a table without members;
or it finishes, with `0` exactly when the last calls succeed, and then the file it leaves
is complete exactly when every table is written. -/
theorem saveToFile_spec (c : Codecs α) (env : SaveEnv) (now : Bytes) {d : Db α} (h : d.Ok)
    (order : { l : List (Bytes × SortSet α Bytes) // l.Perm d.dbDict.entries }) (files : Files) :
    (¬ (env.openOk = true ∧ HeaderSaved c env now) ∧ ∃ errs files',
      saveToFile c env now d order files = some (-1, errs, files') ∧
        files'.dbFile = files.dbFile) ∨
    (env.openOk = true ∧ HeaderSaved c env now ∧ (∃ e ∈ d.dbDict.entries, Faults c env e) ∧
      saveToFile c env now d order files = none) ∨
    (env.openOk = true ∧ HeaderSaved c env now ∧ (∀ e ∈ d.dbDict.entries, ¬ Faults c env e) ∧
      ∃ ret content errs files', saveToFile c env now d order files = some (ret, errs, files') ∧
        Part content (fileOf (dbRecords c now order.val))
          (∀ e ∈ d.dbDict.entries, TableWritten c env e) ∧
        (errs = [] → ∀ e ∈ d.dbDict.entries, TableWritten c env e) ∧
        ((env.Finishes ∧ ret = 0 ∧ files'.dbFile = some content) ∨
          (¬ env.Finishes ∧ ret = -1 ∧ files'.dbFile = files.dbFile))) := by
  have hmem : ∀ P : Bytes × SortSet α Bytes → Prop,
      (∀ e ∈ order.val, P e) ↔ ∀ e ∈ d.dbDict.entries, P e := fun P =>
    ⟨fun h e he => h e (order.property.mem_iff.mpr he),
      fun h e he => h e (order.property.mem_iff.mp he)⟩
  have hok : ∀ e ∈ order.val, TableOk e.2 := (hmem _).mpr fun e he =>
    h e.1 e.2 (Dict.find_eq_some.mpr he)
  by_cases hopen : env.openOk = true
  · obtain ⟨ret1, s1, hsave1, hadds1, hret1⟩ :=
      saveRecord_adds c.version env .version (dbVer now) .version ⟨[], []⟩
    by_cases hneg1 : ret1 < 0
    · left
      refine ⟨fun hh => by have := hret1.mpr hh.2.1; omega, s1.errors,
        { files with tmpFile := some s1.content }, ?_, rfl⟩
      rw [saveToFile, if_neg (fun h => h hopen), hsave1]
      simp only [hneg1, if_true]
    · obtain ⟨ret2, s2, hsave2, hadds2, hret2⟩ := saveRecord_adds c.db env .db db1 .db s1
      by_cases hneg2 : ret2 < 0
      · left
        refine ⟨fun hh => by have := hret2.mpr hh.2.2; omega, s2.errors,
          { files with tmpFile := some s2.content }, ?_, rfl⟩
        rw [saveToFile, if_neg (fun h => h hopen), hsave1]
        simp only [hneg1, if_false, hsave2, hneg2, if_true]
      · right
        have hhead : HeaderSaved c env now := ⟨hret1.mp (by omega), hret2.mp (by omega)⟩
        have hrun : saveToFile c env now d order files = (do
            let s ← saveTables c env order.val s2
            if ¬ env.flushOk ∨ ¬ env.fsyncOk ∨ ¬ env.closeOk then
              some (-1, s.errors, { files with tmpFile := some s.content })
            else if ¬ env.renameOk then some (-1, s.errors, { files with tmpFile := none })
            else some (0, s.errors, ⟨some s.content, none⟩)) := by
          rw [saveToFile, if_neg (fun h => h hopen), hsave1]
          simp only [hneg1, if_false, hsave2, hneg2]
        rcases saveTables_spec c env order.val hok s2 with ⟨hf, htab⟩ | ⟨hf, s3, htab, hadds3⟩
        · left
          refine ⟨hopen, hhead, ?_, by rw [hrun, htab]; rfl⟩
          obtain ⟨e, he, hfe⟩ := hf
          exact ⟨e, order.property.mem_iff.mp he, hfe⟩
        · right
          obtain ⟨part, errs, hc, he, hp, hg⟩ := (hadds1.trans hadds2).trans hadds3
          have hgood : ((Written (env.write .version) (c.version.serializeAsString (dbVer now)) ∧
              Written (env.write .db) (c.db.serializeAsString db1)) ∧
              ∀ e ∈ order.val, TableWritten c env e) ↔
              ∀ e ∈ d.dbDict.entries, TableWritten c env e := by
            rw [hmem]
            exact ⟨And.right, fun h => ⟨⟨hhead.1.1, hhead.2.1⟩, h⟩⟩
          have hfull : record .version (c.version.serializeAsString (dbVer now)) ++
              record .db (c.db.serializeAsString db1) ++
              fileOf (order.val.flatMap (tableRecords c)) = fileOf (dbRecords c now order.val) := by
            rw [dbRecords, fileOf_cons, fileOf_cons, List.append_assoc]
          simp only [List.nil_append] at hc he
          have hpart : Part s3.content (fileOf (dbRecords c now order.val))
              (∀ e ∈ d.dbDict.entries, TableWritten c env e) := by
            rw [hc, ← hfull, ← propext hgood]; exact hp
          have herr : s3.errors = [] → ∀ e ∈ d.dbDict.entries, TableWritten c env e :=
            fun hnil => hgood.mp (hg (he.symm.trans hnil))
          obtain ⟨ret, files', hfin, hcases⟩ := finish_spec env s3 files
          refine ⟨hopen, hhead, (hmem _).mp hf, ret, s3.content, s3.errors, files', ?_, hpart, herr,
            hcases⟩
          rw [hrun, htab]
          exact hfin
  · left
    refine ⟨fun h => hopen h.1, [], files, ?_, rfl⟩
    rw [saveToFile, if_pos hopen]

/-- All or nothing: the save answers `0` and the file is complete, or it answers an error
and the file is what it was. -/
def AllOrNothing (c : Codecs α) (now : Bytes) (l : List (Bytes × SortSet α Bytes)) (files : Files) :
    Option (Int × List RecId × Files) → Prop
  | none => False
  | some (ret, _, files') =>
      (ret = 0 ∧ files'.dbFile = some (fileOf (dbRecords c now l))) ∨
        (ret < 0 ∧ files'.dbFile = files.dbFile)

instance (c : Codecs α) (now : Bytes) (l : List (Bytes × SortSet α Bytes)) (files : Files) :
    ∀ r, Decidable (AllOrNothing c now l files r)
  | none => isFalse id
  | some (ret, _, files') =>
      inferInstanceAs (Decidable ((ret = 0 ∧ files'.dbFile = some (fileOf (dbRecords c now l))) ∨
        (ret < 0 ∧ files'.dbFile = files.dbFile)))

/-- When a save is all or nothing: the temporary file cannot be opened, or VERSION or DB
record is not written; or no TABLE record of a table without members is written, and either
one of the last calls fails or every record of every table is written. -/
def SaveSound (c : Codecs α) (env : SaveEnv) (now : Bytes) (d : Db α) : Prop :=
  ¬ env.openOk = true ∨ ¬ HeaderSaved c env now ∨
    ((∀ e ∈ d.dbDict.entries, ¬ Faults c env e) ∧
      (¬ env.Finishes ∨ ∀ e ∈ d.dbDict.entries, TableWritten c env e))

/-- **All or nothing.** Of every database a run can reach, and for every answer of the
environment, a save is all or nothing exactly when it is sound. -/
theorem saveToFile_allOrNothing_iff (c : Codecs α) (ops : List (DbOp α)) :
    ∃ d, run (DbOp.step c) ops Db.new = some d ∧ ∀ (env : SaveEnv) (now : Bytes)
      (order : { l : List (Bytes × SortSet α Bytes) // l.Perm d.dbDict.entries }) (files : Files),
      AllOrNothing c now order.val files (saveToFile c env now d order files) ↔
        SaveSound c env now d := by
  obtain ⟨d, hrun, h⟩ := run_ok c ops
  refine ⟨d, hrun, fun env now order files => ?_⟩
  rcases saveToFile_spec c env now h order files with
    ⟨hno, errs, files', hsave, hold⟩ | ⟨hopen, hhead, ⟨e, he, hf⟩, hsave⟩ |
      ⟨hopen, hhead, hf, ret, content, errs, files', hsave, hpart, _, hfin⟩
  · -- it ended early
    rw [hsave]
    refine ⟨fun _ => ?_, fun _ => Or.inr ⟨by decide, hold⟩⟩
    by_cases hopen : env.openOk = true
    · exact Or.inr (Or.inl fun hhead => hno ⟨hopen, hhead⟩)
    · exact Or.inl hopen
  · -- it faulted
    rw [hsave]
    refine ⟨False.elim, ?_⟩
    rintro (h1 | h1 | ⟨h1, _⟩)
    · exact h1 hopen
    · exact h1 hhead
    · exact h1 e he hf
  · rw [hsave]
    rcases hfin with ⟨hfin, rfl, hnew⟩ | ⟨hfin, rfl, hold⟩
    · constructor
      · rintro (⟨_, hfile⟩ | ⟨hneg, _⟩)
        · rw [hnew] at hfile
          exact Or.inr (Or.inr ⟨hf, Or.inr (hpart.eq_iff.mp (Option.some.inj hfile))⟩)
        · exact absurd hneg (by decide)
      · rintro (h1 | h1 | ⟨_, h1 | h1⟩)
        · exact absurd hopen h1
        · exact absurd hhead h1
        · exact absurd hfin h1
        · exact Or.inl ⟨rfl, by rw [hnew, hpart.all h1]⟩
    · exact ⟨fun _ => Or.inr (Or.inr ⟨hf, Or.inl hfin⟩), fun _ => Or.inr ⟨by decide, hold⟩⟩

/-! ## A table lost -/

/-- A codec given by the messages of one file and their bytes on the wire. -/
def Codec.ofTable {M : Type} [DecidableEq M] (l : List (M × Bytes))
    (h : ∀ e ∈ l, e.2.length < 2 ^ 31) : Codec M where
  serializeAsString m := ((l.find? fun e => e.1 = m).map Prod.snd).getD []
  parseFromString b := (l.find? fun e => e.2 = b).map Prod.fst
  size_lt m := by
    cases hf : l.find? fun e => e.1 = m with
    | none => simp
    | some e => simpa using h e (List.mem_of_find?_eq_some hf)

/-- What `ctime` answers at the epoch. -/
def epoch : Bytes := ascii "Thu Jan  1 00:00:00 1970\n"

/-- The wire format of the messages of a database with one table `k`, holding the member
`m` at score `1`. -/
def oneTable : Codecs ℤ where
  version := .ofTable [(⟨[], [], []⟩, []), (dbVer epoch,
    [0x0A, 6] ++ ascii "BIS_V1" ++ [0x12, 8] ++ ascii "CaiZhiLi" ++ [0x1A, 25] ++ epoch)]
    (by decide)
  db := .ofTable [(⟨0⟩, []), (db1, [0x08, 1])] (by decide)
  table := .ofTable [(⟨[], 0⟩, []), (⟨ascii "k", 1⟩, [0x0A, 1, 0x6B, 0x10, 1])] (by decide)
  key := .ofTable [(⟨[], []⟩, []), (⟨[1], [ascii "m"]⟩,
    [0x0A, 8, 0, 0, 0, 0, 0, 0, 0xF0, 0x3F, 0x12, 1, 0x6D])] (by decide)

/-- Everything succeeds but the write of the type byte of the TABLE record of `k`. -/
def tableFails : SaveEnv where
  openOk := true
  write id n := if id = .table (ascii "k") ∧ n = 0 then .fail 0 else .ok
  flushOk := true
  fsyncOk := true
  closeOk := true
  renameOk := true

/-- One failed write, and a complete file is replaced by one without its only table. -/
theorem save_loses_table :
    ∃ d, run (DbOp.step oneTable) [.insert ⟨1, by decide⟩ (ascii "k") 1 (ascii "m")] Db.new =
        some d ∧
      ¬ AllOrNothing oneTable epoch d.dbDict.entries
        ⟨some (fileOf (dbRecords oneTable epoch d.dbDict.entries)), none⟩
        (saveToFile oneTable tableFails epoch d ⟨d.dbDict.entries, List.Perm.refl _⟩
          ⟨some (fileOf (dbRecords oneTable epoch d.dbDict.entries)), none⟩) := by
  have hrun : (run (DbOp.step oneTable) [.insert ⟨1, by decide⟩ (ascii "k") 1 (ascii "m")]
      Db.new).any (fun d => decide (¬ AllOrNothing oneTable epoch d.dbDict.entries
        ⟨some (fileOf (dbRecords oneTable epoch d.dbDict.entries)), none⟩
        (saveToFile oneTable tableFails epoch d ⟨d.dbDict.entries, List.Perm.refl _⟩
          ⟨some (fileOf (dbRecords oneTable epoch d.dbDict.entries)), none⟩))) = true := by
    decide +kernel
  obtain ⟨d, hd, hbad⟩ := (Option.any_eq_true _ _).mp hrun
  exact ⟨d, hd, of_decide_eq_true hbad⟩

end LibC
