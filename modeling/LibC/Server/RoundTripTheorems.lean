/-
LibC.Server.RoundTripTheorems — a database that is saved and loaded again.

`Holds s ms` says what a table is for: its skip list holds the members `ms` in
this order, and its dictionary the same members with the same scores. Two tables
that hold the same members have the same dictionary and the same order
(`Holds.dict_eq`, `Holds.members_eq`), whatever the heights of their nodes.

Loading the KEY records of a table inserts its members in order. They are sorted
and distinct, so each of them goes to the end of the list (`Holds.insert_last`),
tied or not. `loadTable` is the effect of the records of one table,
`loadTables` that of all of them, and `save_load` the round trip.

A TABLE record needs a body. The message of a table is empty on the wire when
every field has its default value: the key is the empty string and `size()`,
which counts insertions and deletions, is `0`. Its type byte is then stored
without a record behind it, the save goes on, and the table is lost
(`emptyKey_lost`).

No `sorry`, no `axiom`, no `native_decide`.
-/
import LibC.Server.LoadTheorems

namespace LibC

open LibC.Lib

variable {α : Type} [LinearOrder α] [Neg α] [One α]

/-! ## What a table holds -/

/-- The table holds the members `ms`, in this order. -/
structure Holds (s : SortSet α Bytes) (ms : List (α × Bytes)) : Prop where
  repr : ∃ ps ts, Repr s.sl ps ts ∧ ts.map (fun t => (t.score, t.val)) = ms
  dict : ∀ data key, s.dict data = some key ↔ (key, data) ∈ ms

/-- Sorted by score, each member once. -/
def Ranked (ms : List (α × Bytes)) : Prop := ms.Pairwise fun a b => a.1 ≤ b.1 ∧ a.2 ≠ b.2

variable {s s' : SortSet α Bytes} {ms : List (α × Bytes)}

theorem Holds.members_eq (h : Holds s ms) : s.members = ms := by
  obtain ⟨_, _, r, hms⟩ := h.repr
  exact r.pairs_eq.trans hms

/-- Tables that hold the same members have the same dictionary. -/
theorem Holds.dict_eq (h : Holds s ms) (h' : Holds s' ms) : s.dict = s'.dict := by
  funext data
  refine Option.ext fun key => ?_
  rw [h.dict, h'.dict]

theorem holds_new : Holds (SortSet.new : SortSet α Bytes) [] :=
  ⟨⟨[], [], repr_new, rfl⟩, fun data key => by simp [SortSet.new]⟩

/-- A table whose halves agree holds its members, which are ranked. -/
theorem holds_of_agrees (h : TableOk s) (ha : Agrees s) : Holds s s.members ∧ Ranked s.members := by
  obtain ⟨ps, ts, h⟩ := h
  obtain ⟨qs, hchain, hnodup, hiff⟩ := ha
  obtain rfl := hchain.unique h.repr.levelChain_zero
  rw [h.repr.towers_eq] at hnodup hiff
  have hmem : s.members = ts.map fun t => (t.score, t.val) := h.repr.pairs_eq
  rw [hmem]
  refine ⟨⟨⟨_, ts, h.repr, rfl⟩, fun data key => ?_⟩, ?_⟩
  · rw [hiff, List.mem_map]
    refine exists_congr fun t => and_congr_right fun _ => ?_
    simp only [Prod.mk.injEq]
    exact And.comm
  · exact List.pairwise_map.mpr (h.repr.sorted.and (List.pairwise_map.mp hnodup))

/-- A table in which the dictionary has every member holds its members. -/
theorem TableOk.holds (h : TableOk s) (hall : ∀ m ∈ s.members, s.dict m.2 = some m.1) :
    Holds s s.members := by
  obtain ⟨ps, ts, h⟩ := h
  have hmem : s.members = ts.map fun t => (t.score, t.val) := h.repr.pairs_eq
  refine ⟨⟨ps, ts, h.repr, hmem.symm⟩, fun data key => ⟨fun hd => ?_, hall (key, data)⟩⟩
  obtain ⟨t, ht, rfl, rfl⟩ := h.covered data key hd
  rw [hmem]
  exact List.mem_map_of_mem (f := fun t => (t.score, t.val)) ht

/-- A table that holds ranked members agrees with itself. -/
theorem Holds.agrees (h : Holds s ms) (hr : Ranked ms) : Agrees s := by
  obtain ⟨ps, ts, r, rfl⟩ := h.repr
  refine ⟨ps, r.levelChain_zero, ?_, fun data key => ?_⟩
  · rw [r.towers_eq]
    exact List.pairwise_map.mpr ((List.pairwise_map.mp hr).imp fun hab => hab.2)
  · rw [r.towers_eq, h.dict, List.mem_map]
    refine exists_congr fun t => and_congr_right fun _ => ?_
    simp only [Prod.mk.injEq]
    exact And.comm

/-- A member that comes after all others is inserted at the end. -/
theorem Holds.insert_last (h : Holds s ms) (lvl : Lvl) {m : α × Bytes} (hm : Ranked (ms ++ [m])) :
    ∃ s', s.insert lvl m.1 m.2 = some (true, s') ∧ s'.sl.lenth = s.sl.lenth + 1 ∧
      Holds s' (ms ++ [m]) := by
  obtain ⟨ps, ts, r, hms⟩ := h.repr
  have hlast : ∀ a ∈ ms, a.1 ≤ m.1 ∧ a.2 ≠ m.2 := fun a ha =>
    (List.pairwise_append.mp hm).2.2 a ha m (List.mem_singleton_self m)
  have hfresh : s.dict m.2 = none := by
    rw [Option.eq_none_iff_forall_ne_some]
    intro key hk
    exact (hlast _ ((h.dict m.2 key).mp hk)).2 rfl
  obtain ⟨sl', hins, hlen, r'⟩ := LibC.insert_last r lvl (show ∀ t ∈ ts, Before m.1 m.2 t by
    intro t ht
    obtain ⟨hle, hne⟩ := hlast (t.score, t.val) (hms ▸ List.mem_map_of_mem ht)
    rcases lt_or_eq_of_le hle with hlt | heq
    · exact Or.inl hlt
    · exact Or.inr ⟨heq, hne⟩)
  refine ⟨⟨sl', Function.update s.dict m.2 (some m.1)⟩, by simp [SortSet.insert, hfresh, hins],
    hlen, ⟨_, _, r', by rw [List.map_append, hms]; rfl⟩, fun data key => ?_⟩
  show Function.update s.dict m.2 (some m.1) data = some key ↔ _
  rw [List.mem_append, List.mem_singleton]
  by_cases hd : data = m.2
  · subst hd
    rw [Function.update_self, Option.some.injEq]
    constructor
    · rintro rfl; exact Or.inr rfl
    · rintro (hmem | heq)
      · exact absurd rfl (hlast _ hmem).2
      · exact (congrArg Prod.fst heq).symm
  · rw [Function.update_of_ne hd, h.dict]
    exact ⟨Or.inl, fun hor => hor.resolve_right fun heq => hd (congrArg Prod.snd heq)⟩

/-- Members that come after all others are inserted in order. -/
theorem insertAll_holds (heights : ℕ → Lvl) : ∀ (rest ms : List (α × Bytes))
    (s : SortSet α Bytes) (n : ℕ), Holds s ms → Ranked (ms ++ rest) →
    ∃ s' n', insertAll heights rest s n = some (s', n') ∧ Holds s' (ms ++ rest)
  | [], ms, s, n, h, _ => ⟨s, n, rfl, by rwa [List.append_nil]⟩
  | m :: rest, ms, s, n, h, hr => by
      have hsplit : ms ++ m :: rest = ms ++ [m] ++ rest := by simp
      rw [hsplit] at hr
      obtain ⟨s1, hins, _, h1⟩ := h.insert_last (heights n) (List.pairwise_append.mp hr).1
      obtain ⟨s', n', hall, h'⟩ := insertAll_holds heights rest (ms ++ [m]) s1 (n + 1) h1 hr
      exact ⟨s', n', by simp [insertAll, hins, hall], by rwa [hsplit]⟩

/-! ## Loading a table -/

/-- The messages of the records are read as they were written. -/
structure Codecs.Inverts (c : Codecs α) (now : Bytes) (d : Db α) : Prop where
  version : c.version.parseFromString (c.version.serializeAsString (dbVer now)) = some (dbVer now)
  db : c.db.parseFromString (c.db.serializeAsString db1) = some db1
  table : ∀ e ∈ d.dbDict.entries,
    c.table.parseFromString (c.table.serializeAsString (tableMsg e.1 e.2)) = some (tableMsg e.1 e.2)
  key : ∀ e ∈ d.dbDict.entries, ∀ g ∈ groupsOf [] e.2.members,
    c.key.parseFromString (c.key.serializeAsString (keyMsg g)) = some (keyMsg g)

/-- The empty string is read as the message whose fields have their default values. -/
structure Codecs.Defaults (c : Codecs α) : Prop where
  version : c.version.parseFromString [] = some ⟨[], [], []⟩
  db : c.db.parseFromString [] = some ⟨0⟩
  table : c.table.parseFromString [] = some ⟨[], 0⟩
  key : c.key.parseFromString [] = some ⟨[], []⟩

theorem loadRecords_append (c : Codecs α) (heights : ℕ → Lvl) :
    ∀ (rs rs' : List (MsgNodeType × Bytes)) (s : Loader α),
      loadRecords c heights (rs ++ rs') s =
        (loadRecords c heights rs s).bind (loadRecords c heights rs')
  | [], _, _ => rfl
  | r :: rs, rs', s => by
      rw [List.cons_append, loadRecords, loadRecords]
      cases loadRecord c heights r.1 { s with file := recordTail r.2 } with
      | none => rfl
      | some s1 => exact loadRecords_append c heights rs rs' s1

omit [LinearOrder α] [Neg α] [One α] in
/-- `LoadObj` of a record that is all there is. -/
theorem Loader.loadObj_recordTail {M : Type} (c : Codec M) (type : MsgNodeType) {body : Bytes}
    (hb : BodyOk body) (s : Loader α) :
    Loader.loadObj c type { s with file := recordTail body } =
      (c.parseFromString body,
        { s with file := [], reads := s.reads ++ [(type, some body)] }) := by
  have h := Loader.loadObj_record c type hb s []
  rwa [List.append_nil] at h

/-- The KEY records of a table, loaded into the table under `key`. -/
theorem loadGroups (c : Codecs α) (heights : ℕ → Lvl) (key : Bytes) :
    ∀ (gs : List (List (α × Bytes))) (s : Loader α) (t : SortSet α Bytes) (ms : List (α × Bytes)),
      (∀ g ∈ gs, BodyOk (c.key.serializeAsString (keyMsg g)) ∧
        c.key.parseFromString (c.key.serializeAsString (keyMsg g)) = some (keyMsg g)) →
      s.curSset = some key → s.db.dbDict.find key = some t → Holds t ms →
      Ranked (ms ++ gs.flatten) →
      ∃ s' t', loadRecords c heights
          (gs.map fun g => (MsgNodeType.key, c.key.serializeAsString (keyMsg g))) s = some s' ∧
        s'.db.dbDict.find key = some t' ∧ Holds t' (ms ++ gs.flatten) ∧
        ∀ q, q ≠ key → s'.db.dbDict.find q = s.db.dbDict.find q
  | [], s, t, ms, _, _, hf, h, _ => ⟨s, t, rfl, hf, by simpa using h, fun _ _ => rfl⟩
  | g :: gs, s, t, ms, hok, hcur, hf, h, hr => by
      obtain ⟨hb, hparse⟩ := hok g (List.mem_cons_self ..)
      rw [List.flatten_cons, ← List.append_assoc] at hr
      obtain ⟨t1, n1, hall, h1⟩ := insertAll_holds heights g ms t s.draws h
        (List.pairwise_append.mp hr).1
      have hzip : (keyMsg g).key.zip (keyMsg g).val = g := (List.zip_of_prod rfl rfl).symm
      have hrec : loadRecord c heights .key
          { s with file := recordTail (c.key.serializeAsString (keyMsg g)) } = some
          { s with
            db := { s.db with dbDict := s.db.dbDict.modify key fun _ => t1 }
            file := []
            draws := n1
            reads := s.reads ++ [(.key, some (c.key.serializeAsString (keyMsg g)))] } := by
        rw [loadRecord, Loader.loadObj_recordTail _ _ hb, hparse]
        simp [hcur, hf, hzip, hall]
      obtain ⟨s', t', hrecs, hf', h', hother⟩ := loadGroups c heights key gs
        { s with
          db := { s.db with dbDict := s.db.dbDict.modify key fun _ => t1 }
          file := []
          draws := n1
          reads := s.reads ++ [(.key, some (c.key.serializeAsString (keyMsg g)))] }
        t1 (ms ++ g) (fun g' hg => hok g' (List.mem_cons_of_mem _ hg)) hcur
        (by rw [Dict.find_modify, if_pos rfl, hf]; rfl) h1 hr
      refine ⟨s', t', ?_, hf', by rwa [List.flatten_cons, ← List.append_assoc], fun q hq => ?_⟩
      · rw [List.map_cons, loadRecords, hrec]
        exact hrecs
      · rw [hother q hq]
        show (s.db.dbDict.modify key fun _ => t1).find q = _
        rw [Dict.find_modify, if_neg hq]

/-- The records of a table, loaded into a database that does not have it. -/
theorem loadTable (c : Codecs α) (heights : ℕ → Lvl) (e : Bytes × SortSet α Bytes)
    (hok : ∀ r ∈ tableRecords c e, BodyOk r.2)
    (htable : c.table.parseFromString (c.table.serializeAsString (tableMsg e.1 e.2)) =
      some (tableMsg e.1 e.2))
    (hkey : ∀ g ∈ groupsOf [] e.2.members,
      c.key.parseFromString (c.key.serializeAsString (keyMsg g)) = some (keyMsg g))
    (hr : Ranked e.2.members) (s : Loader α) (hnone : s.db.dbDict.find e.1 = none) :
    ∃ s' t', loadRecords c heights (tableRecords c e) s = some s' ∧
      s'.db.dbDict.find e.1 = some t' ∧ Holds t' e.2.members ∧
      ∀ q, q ≠ e.1 → s'.db.dbDict.find q = s.db.dbDict.find q := by
  have hb := hok _ (List.mem_cons_self ..)
  have hflat : [] ++ (groupsOf [] e.2.members).flatten = e.2.members := groupsOf_flatten [] _
  have hrec : loadRecord c heights .table
      { s with file := recordTail (c.table.serializeAsString (tableMsg e.1 e.2)) } = some
      { s with
        db := { s.db with dbDict := Db.openTable e.1 s.db.dbDict }
        curSset := some e.1
        file := []
        reads := s.reads ++ [(.table, some (c.table.serializeAsString (tableMsg e.1 e.2)))] } := by
    rw [loadRecord, Loader.loadObj_recordTail _ _ hb, htable]
    rfl
  obtain ⟨s', t', hrecs, hf', h', hother⟩ := loadGroups c heights e.1 (groupsOf [] e.2.members)
    { s with
      db := { s.db with dbDict := Db.openTable e.1 s.db.dbDict }
      curSset := some e.1
      file := []
      reads := s.reads ++ [(.table, some (c.table.serializeAsString (tableMsg e.1 e.2)))] }
    SortSet.new []
    (fun g hg => ⟨hok _ (List.mem_cons_of_mem _ (List.mem_map_of_mem hg)), hkey g hg⟩)
    rfl (by rw [find_openTable, if_pos rfl, hnone]; rfl) holds_new (by rwa [hflat])
  refine ⟨s', t', ?_, hf', by rwa [hflat] at h', fun q hq => ?_⟩
  · rw [tableRecords, loadRecords, hrec]
    exact hrecs
  · rw [hother q hq, find_openTable, if_neg hq]

/-- The records of some tables, loaded into a database that has none of them. -/
theorem loadTables (c : Codecs α) (heights : ℕ → Lvl) : ∀ (l : List (Bytes × SortSet α Bytes)),
    (l.map Prod.fst).Nodup → (∀ e ∈ l, (∀ r ∈ tableRecords c e, BodyOk r.2) ∧
      c.table.parseFromString (c.table.serializeAsString (tableMsg e.1 e.2)) =
        some (tableMsg e.1 e.2) ∧
      (∀ g ∈ groupsOf [] e.2.members,
        c.key.parseFromString (c.key.serializeAsString (keyMsg g)) = some (keyMsg g)) ∧
      Ranked e.2.members) →
    ∀ s : Loader α, (∀ e ∈ l, s.db.dbDict.find e.1 = none) →
      ∃ s', loadRecords c heights (l.flatMap (tableRecords c)) s = some s' ∧
        (∀ e ∈ l, ∃ t, s'.db.dbDict.find e.1 = some t ∧ Holds t e.2.members) ∧
        ∀ q, q ∉ l.map Prod.fst → s'.db.dbDict.find q = s.db.dbDict.find q
  | [], _, _, s, _ => ⟨s, rfl, by simp, fun _ _ => rfl⟩
  | e :: l, hnodup, hok, s, hnone => by
      obtain ⟨hnot, hnodup⟩ := List.nodup_cons.mp hnodup
      obtain ⟨hb, htable, hkey, hr⟩ := hok e (List.mem_cons_self ..)
      obtain ⟨s1, t, hrec, hf, ht, hother⟩ := loadTable c heights e hb htable hkey hr s
        (hnone e (List.mem_cons_self ..))
      have hne : ∀ e' ∈ l, e'.1 ≠ e.1 := fun e' he' heq =>
        hnot (heq ▸ List.mem_map_of_mem he')
      obtain ⟨s', hrecs, hall, hrest⟩ := loadTables c heights l hnodup
        (fun e' he' => hok e' (List.mem_cons_of_mem _ he')) s1 fun e' he' => by
          rw [hother _ (hne e' he'), hnone e' (List.mem_cons_of_mem _ he')]
      refine ⟨s', ?_, fun e' he' => ?_, fun q hq => ?_⟩
      · rw [List.flatMap_cons, loadRecords_append, hrec]
        exact hrecs
      · rcases List.mem_cons.mp he' with rfl | he'
        · exact ⟨t, by rw [hrest _ hnot, hf], ht⟩
        · exact hall e' he'
      · rw [List.map_cons, List.mem_cons, not_or] at hq
        rw [hrest q hq.2, hother q hq.1]

/-! ## The round trip -/

/-- The tables of two databases: the same keys, and under each the same dictionary and the
same members in the same order. -/
def SameTables (d d' : Db α) : Prop :=
  ∀ key, (d.dbDict.find key).map (fun s => (s.dict, s.members)) =
    (d'.dbDict.find key).map fun s => (s.dict, s.members)

/-- The tables the round trip is about: they have members, and their halves agree. -/
def Db.Sound (d : Db α) : Prop :=
  ∀ key s, d.dbDict.find key = some s → s.members ≠ [] ∧ Agrees s

/-- When a save is complete: no table has both the empty key and a `size()` of `0`, and the
sizes of the VERSION, DB and TABLE records fit an `int`. -/
def Db.Savable (c : Codecs α) (now : Bytes) (d : Db α) : Prop :=
  FitsInt (c.version.serializeAsString (dbVer now)) ∧ FitsInt (c.db.serializeAsString db1) ∧
    ∀ e ∈ d.dbDict.entries, (e.1 ≠ [] ∨ e.2.size ≠ 0) ∧
      FitsInt (c.table.serializeAsString (tableMsg e.1 e.2))

omit [LinearOrder α] [Neg α] [One α] in
/-- A message that is not the default one has a body, which is written when every call
succeeds. -/
theorem written_allOk {M : Type} (c : Codec M) (id : RecId) {m dflt : M}
    (hdef : c.parseFromString [] = some dflt)
    (hinv : c.parseFromString (c.serializeAsString m) = some m) (hne : m ≠ dflt) :
    Written (SaveEnv.allOk.write id) (c.serializeAsString m) := by
  refine ⟨fun hnil => hne ?_, fun _ _ _ => rfl⟩
  rw [hnil, hdef] at hinv
  exact (Option.some.inj hinv).symm

variable {c : Codecs α} {now : Bytes} {d : Db α}

omit [LinearOrder α] [Neg α] [One α] in
/-- VERSION and DB record of a database that can be saved. -/
theorem Db.Savable.header (hs : d.Savable c now) (hdef : c.Defaults) (hinv : c.Inverts now d) :
    HeaderSaved c .allOk now :=
  ⟨⟨written_allOk _ _ hdef.version hinv.version (by simp [dbVer, ascii]), hs.1⟩,
    ⟨written_allOk _ _ hdef.db hinv.db (by decide), hs.2.1⟩⟩

omit [LinearOrder α] [Neg α] [One α] in
/-- The records of the tables of a database that can be saved. -/
theorem Db.Savable.tables (hs : d.Savable c now) (hdef : c.Defaults) (hinv : c.Inverts now d) :
    ∀ e ∈ d.dbDict.entries, TableWritten c .allOk e := by
  intro e he
  obtain ⟨hne, hfit⟩ := hs.2.2 e he
  refine ⟨written_allOk _ _ hdef.table (hinv.table e he) fun heq => ?_, Or.inr hfit,
    fun j g hg => written_allOk _ _ hdef.key (hinv.key e he g (List.mem_of_getElem? hg))
      fun heq => ?_⟩
  · simp only [tableMsg, MsgDbTable.mk.injEq] at heq
    rcases hne with hkey | hsize
    · exact hkey heq.1
    · refine hsize (UInt32.toNat_inj.mp ?_)
      have h := congrArg UInt64.toNat heq.2
      simpa using h
  · refine groupsOf_ne_nil [] _ g (List.mem_of_getElem? hg) ?_
    simpa [keyMsg] using heq

/-- **Round trip.** A database that a run can reach, whose tables have members and agree
with themselves, is saved and loaded again without a change, if it can be saved. -/
theorem save_load (c : Codecs α) (hdef : c.Defaults) (ops : List (DbOp α))
    (hd : run (DbOp.step c) ops Db.new = some d) (hsound : d.Sound) (now : Bytes)
    (hinv : c.Inverts now d) (hs : d.Savable c now)
    (order : { l : List (Bytes × SortSet α Bytes) // l.Perm d.dbDict.entries }) (files : Files)
    (heights : ℕ → Lvl) :
    ∃ F errs files' s', saveToFile c .allOk now d order files = some (0, errs, files') ∧
      files'.dbFile = some F ∧
      checkDbFileAndLoad c heights (some F) Db.new = some (0, s') ∧ SameTables s'.db d := by
  obtain ⟨d', hrun, hok⟩ := run_ok c ops
  obtain rfl : d = d' := Option.some.inj (hd.symm.trans hrun)
  have hhead := hs.header hdef hinv
  have htab := hs.tables hdef hinv
  have hmem : ∀ {e}, e ∈ order.val ↔ e ∈ d.dbDict.entries := order.property.mem_iff
  have hfind : ∀ {e}, e ∈ d.dbDict.entries → d.dbDict.find e.1 = some e.2 := fun he =>
    Dict.find_eq_some.mpr he
  rcases saveToFile_spec c .allOk now hok order files with
    ⟨hno, _⟩ | ⟨_, _, ⟨e, he, hf⟩, _⟩ | ⟨_, _, _, ret, content, errs, files', hsave, hpart, _, hfin⟩
  · exact absurd ⟨rfl, hhead⟩ hno
  · exact absurd hf.1 (hsound e.1 e.2 (hfind he)).1
  · obtain ⟨_, rfl, hfile⟩ | ⟨hfin, _⟩ := hfin
    · rw [hpart.all htab] at hfile
      have hbody := bodyOk_dbRecords c .allOk now order.val hhead fun e he => htab e (hmem.mp he)
      have hranked : ∀ e ∈ d.dbDict.entries, Holds e.2 e.2.members ∧ Ranked e.2.members :=
        fun e he => holds_of_agrees (hok e.1 e.2 (hfind he)) (hsound e.1 e.2 (hfind he)).2
      -- VERSION and DB record have no effect on the tables
      obtain ⟨s0, hrecs, hdict0⟩ : ∃ s0 : Loader α, loadRecords c heights
          (dbRecords c now order.val) (.start Db.new) =
            loadRecords c heights (order.val.flatMap (tableRecords c)) s0 ∧
          s0.db.dbDict = Dict.empty := ⟨_, rfl, rfl⟩
      obtain ⟨s', hload, hall, hrest⟩ := loadTables c heights order.val
        ((order.property.map Prod.fst).nodup_iff.mpr d.dbDict.nodup)
        (fun e he => ⟨fun r hr => hbody r (List.mem_cons_of_mem _ (List.mem_cons_of_mem _
            (List.mem_flatMap.mpr ⟨e, he, hr⟩))),
          hinv.table e (hmem.mp he), hinv.key e (hmem.mp he), (hranked e (hmem.mp he)).2⟩)
        s0 (fun e _ => by rw [hdict0, Dict.find_empty])
      refine ⟨_, errs, files', Loader.finish { s' with file := [] }, hsave, hfile, ?_,
        fun key => ?_⟩
      · rw [checkDbFileAndLoad_records c heights hbody, hrecs, hload]
        rfl
      · show (s'.db.dbDict.find key).map _ = _
        cases hk : d.dbDict.find key with
        | none =>
            rw [hrest key fun hin => ?_, hdict0, Dict.find_empty]
            rw [(order.property.map Prod.fst).mem_iff] at hin
            exact Dict.find_eq_none.mp hk hin
        | some s =>
            have he : (key, s) ∈ d.dbDict.entries := Dict.find_eq_some.mp hk
            obtain ⟨t, ht, hholds⟩ := hall (key, s) (hmem.mpr he)
            have hs0 := (hranked (key, s) he).1
            rw [ht, Option.map_some, Option.map_some, hholds.dict_eq hs0, hholds.members_eq]
    · exact absurd ⟨rfl, rfl, rfl, rfl⟩ hfin

/-- The first table of a database, with its first member. -/
theorem Db.insert_new (lvl : Lvl) (key : Bytes) (score : α) (data : Bytes) :
    ∃ d s, (Db.new : Db α).insert lvl key score data = some (true, d) ∧
      d.dbDict.entries = [(key, s)] ∧ s.sl.lenth = 1 ∧ Holds s [(score, data)] := by
  obtain ⟨s, hins, hlen, h⟩ := (holds_new (α := α)).insert_last lvl (m := (score, data))
    (List.pairwise_singleton _ _)
  have hup : (SortSet.new : SortSet α Bytes).update lvl score data = some (true, s) := hins
  refine ⟨{ (Db.new : Db α) with
      dbDict := (Db.openTable key Dict.empty).modify key fun _ => s }, s, ?_, ?_, hlen, h⟩
  · simp [Db.insert, Db.new, find_openTable, hup]
  · have hopen : (Db.openTable key (Dict.empty : Dict Bytes (SortSet α Bytes))).entries =
        [(key, SortSet.new)] := Dict.entries_insert rfl _
    simp [Dict.modify, hopen]

/-- The members of a table `k`: `25` tied at `1` and `26` at `2`. -/
def kMembers : List (ℤ × Bytes) :=
  (List.range 51).map fun i => (if i < 25 then 1 else 2, [UInt8.ofNat (48 + i)])

/-- The members of a table `l`, tied at `2`. -/
def lMembers : List (ℤ × Bytes) := [(2, ascii "a"), (2, ascii "b")]

/-- A KEY message with scores `1` and `2`, on the wire. -/
def keyOnWire (g : List (ℤ × Bytes)) : Bytes :=
  let n := 8 * g.length
  let len := if n < 128 then [UInt8.ofNat n] else
    [UInt8.ofNat (n % 128 + 128), UInt8.ofNat (n / 128)]
  [0x0A] ++ len
    ++ g.flatMap (fun m => [0, 0, 0, 0, 0, 0] ++ if m.1 = 1 then [0xF0, 0x3F] else [0, 0x40])
    ++ g.flatMap fun m => [0x12, UInt8.ofNat m.2.length] ++ m.2

/-- The wire format of the messages of a database with these tables; `k` takes two KEY records. -/
def twoTables : Codecs ℤ where
  version := oneTable.version
  db := oneTable.db
  table := .ofTable [(⟨[], 0⟩, []), (⟨ascii "k", 51⟩, [0x0A, 1, 0x6B, 0x10, 51]),
    (⟨ascii "l", 2⟩, [0x0A, 1, 0x6C, 0x10, 2])] (by decide)
  key := .ofTable ((⟨[], []⟩, []) ::
    [kMembers.take 50, kMembers.drop 50, lMembers].map fun g => (keyMsg g, keyOnWire g))
    (by decide +kernel)

/-- The members with the higher score come first, and those of `l` between the others. -/
def twoTablesOps : List (DbOp ℤ) :=
  (kMembers.drop 25).map (fun m => .insert ⟨2, by decide⟩ (ascii "k") m.1 m.2) ++
    (lMembers.map (fun m => .insert ⟨1, by decide⟩ (ascii "l") m.1 m.2) ++
      (kMembers.take 25).map fun m => .insert ⟨1, by decide⟩ (ascii "k") m.1 m.2)

/-- What a database is asked for before it is saved. -/
def saveFacts (d : Db ℤ) : Bool :=
  decide (d.dbDict.entries.map (fun e => tableMsg e.1 e.2) = [⟨ascii "k", 51⟩, ⟨ascii "l", 2⟩]) &&
    decide (d.dbDict.entries.map (fun e => e.2.members) = [kMembers, lMembers]) &&
    d.dbDict.entries.all fun e => e.2.members.all fun m => decide (e.2.dict m.2 = some m.1)

theorem save_load_twoTables :
    ∃ d F errs files' s', run (DbOp.step twoTables) twoTablesOps Db.new = some d ∧
      d.dbDict.entries.map (fun e => e.2.members) = [kMembers, lMembers] ∧
      saveToFile twoTables .allOk epoch d ⟨d.dbDict.entries, List.Perm.refl _⟩ ⟨none, none⟩ =
        some (0, errs, files') ∧
      files'.dbFile = some F ∧
      checkDbFileAndLoad twoTables (fun _ => ⟨2, by decide⟩) (some F) Db.new = some (0, s') ∧
      SameTables s'.db d := by
  have hfacts : (run (DbOp.step twoTables) twoTablesOps Db.new).any saveFacts = true := by
    decide +kernel
  obtain ⟨d, hrun, hfacts⟩ := (Option.any_eq_true _ _).mp hfacts
  simp only [saveFacts, Bool.and_eq_true, decide_eq_true_eq, List.all_eq_true] at hfacts
  obtain ⟨⟨htables, hmembers⟩, hdict⟩ := hfacts
  -- what is known of each table
  have hmsg : ∀ e ∈ d.dbDict.entries,
      tableMsg e.1 e.2 = ⟨ascii "k", 51⟩ ∨ tableMsg e.1 e.2 = ⟨ascii "l", 2⟩ := fun e he => by
    simpa [htables] using List.mem_map_of_mem (f := fun e => tableMsg e.1 e.2) he
  have hmem : ∀ e ∈ d.dbDict.entries, e.2.members = kMembers ∨ e.2.members = lMembers :=
    fun e he => by
      simpa [hmembers] using List.mem_map_of_mem (f := fun e => e.2.members) he
  have hranked : Ranked kMembers ∧ Ranked lMembers := by
    unfold Ranked
    decide +kernel
  have hgroups : groupsOf [] kMembers = [kMembers.take 50, kMembers.drop 50] ∧
      groupsOf [] lMembers = [lMembers] := by decide +kernel
  have hkeys : ∀ g ∈ [kMembers.take 50, kMembers.drop 50, lMembers],
      twoTables.key.parseFromString (twoTables.key.serializeAsString (keyMsg g)) =
        some (keyMsg g) := by decide +kernel
  obtain ⟨d1, hrun1, hok⟩ := run_ok twoTables twoTablesOps
  obtain rfl := Option.some.inj (hrun.symm.trans hrun1)
  obtain ⟨F, errs, files', s', h⟩ := save_load twoTables
    ⟨by decide, by decide, by decide, by decide⟩
    twoTablesOps hrun (fun key t ht => by
      have he := Dict.find_eq_some.mp ht
      have hholds := (hok key t ht).holds (hdict _ he)
      rcases hmem _ he with heq | heq <;> rw [heq] at hholds ⊢
      · exact ⟨by decide +kernel, hholds.agrees hranked.1⟩
      · exact ⟨by decide, hholds.agrees hranked.2⟩)
    epoch ⟨by decide, by decide, fun e he => by
      rcases hmsg e he with heq | heq <;> rw [heq] <;> decide, fun e he g hg => by
      rcases hmem e he with heq | heq <;> rw [heq] at hg
      · rw [hgroups.1] at hg
        exact hkeys g (List.mem_append_left [lMembers] hg)
      · rw [hgroups.2] at hg
        exact hkeys g (List.mem_append_right [kMembers.take 50, kMembers.drop 50] hg)⟩
    ⟨by decide, by decide, fun e he => by
      rcases hmsg e he with heq | heq <;> rw [heq] <;>
        exact ⟨Or.inl fun hnil => by simp [tableMsg, hnil, ascii] at heq, by decide⟩⟩
    ⟨d.dbDict.entries, List.Perm.refl _⟩ ⟨none, none⟩ (fun _ => ⟨2, by decide⟩)
  exact ⟨d, F, errs, files', s', hrun, hmembers, h⟩

/-! ## A table lost -/

/-- The last member is deleted. -/
theorem Holds.delMem_last {m : α × Bytes} (h : Holds s (ms ++ [m])) (hm : Ranked (ms ++ [m])) :
    ∃ s', s.delMem m.2 = some (true, s') ∧ s'.sl.lenth = s.sl.lenth + 1 ∧ Holds s' ms := by
  obtain ⟨ps, ts, r, hms⟩ := h.repr
  have hd : s.dict m.2 = some m.1 := (h.dict _ _).mpr (by simp)
  have hne : ∀ a ∈ ms, a.2 ≠ m.2 := fun a ha =>
    ((List.pairwise_append.mp hm).2.2 a ha m (List.mem_singleton_self m)).2
  obtain ⟨ts0, tl, rfl, rfl, hlast⟩ := List.map_eq_append_iff.mp hms
  obtain ⟨t, rfl, rfl⟩ := List.map_eq_singleton_iff.mp hlast
  obtain ⟨stops, desc, hdel⟩ := LibC.delete_spec r t.score t.val
  have hK : (ts0 ++ [t])[ts0.length]? = some t := by simp
  have hlen : (ts0 ++ [t]).length = ts0.length + 1 := by simp
  have hstop : stops 0 = ts0.length := by
    refine (stop_eq_iff r desc hK rfl rfl fun j t' hj _ hv => ?_).mpr
      fun i j a b hij ha hb _ hav _ => ?_
    · by_contra hj0
      have hlt : j < ts0.length := by
        have := (List.getElem?_eq_some_iff.mp hj).1
        omega
      rw [List.getElem?_append_left hlt] at hj
      exact hne _ (List.mem_map_of_mem (List.mem_of_getElem? hj)) hv
    · have hlt : i < ts0.length := by
        have := (List.getElem?_eq_some_iff.mp hb).1
        omega
      rw [List.getElem?_append_left hlt] at ha
      exact absurd hav (hne _ (List.mem_map_of_mem (List.mem_of_getElem? ha)))
  rcases hdel with ⟨t', sl', _, _, _, hdel, hlenth, r'⟩ | ⟨hmiss, _⟩
  · rw [hstop] at r'
    have herase : (ts0 ++ [t]).eraseIdx ts0.length = ts0 := by
      rw [List.eraseIdx_append_of_length_le (Nat.le_refl _), Nat.sub_self]
      simp
    rw [herase] at r'
    refine ⟨⟨sl', Function.update s.dict t.val none⟩, by simp [SortSet.delMem, hd, hdel], hlenth,
      ⟨_, _, r', rfl⟩, fun data key => ?_⟩
    show Function.update s.dict t.val none data = some key ↔ _
    by_cases hdata : data = t.val
    · subst hdata
      rw [Function.update_self]
      exact ⟨fun hk => absurd hk.symm (Option.some_ne_none key),
        fun hk => absurd rfl (hne (key, t.val) hk)⟩
    · rw [Function.update_of_ne hdata, h.dict, List.mem_append, List.mem_singleton]
      exact ⟨fun hor => hor.resolve_right fun heq => hdata (congrArg Prod.snd heq), Or.inl⟩
  · rw [hstop] at hmiss
    exact absurd ⟨rfl, rfl⟩ (hmiss t hK)

/-- The last member changes its score and stays the last one; `lenth_` counts twice. -/
theorem Holds.update_last {m m' : α × Bytes} (h : Holds s (ms ++ [m])) (hm : Ranked (ms ++ [m]))
    (hm' : Ranked (ms ++ [m'])) (hdata : m'.2 = m.2) (hscore : m.1 ≠ m'.1) (lvl : Lvl) :
    ∃ s', s.update lvl m'.1 m'.2 = some (true, s') ∧ s'.sl.lenth = s.sl.lenth + 2 ∧
      Holds s' (ms ++ [m']) := by
  have hd : s.dict m'.2 = some m.1 := (h.dict _ _).mpr (by simp [hdata])
  obtain ⟨s1, hdel, hlen1, h1⟩ := h.delMem_last hm
  obtain ⟨s2, hins, hlen2, h2⟩ := h1.insert_last lvl hm'
  refine ⟨s2, ?_, by rw [hlen2, hlen1]; grind, h2⟩
  rw [hdata] at hins hd ⊢
  simp [SortSet.update, hd, hscore, hdel, hins]

/-- Put the member `a` into the table with the empty key, and move the member `b` along
the scores `2`, `3`, …, `n + 1`. -/
def emptyKeyOps (n : ℕ) : List (DbOp ℤ) :=
  .insert ⟨1, by decide⟩ [] 1 (ascii "a") ::
    (List.range n).map fun i : ℕ => .insert ⟨1, by decide⟩ [] ((i : ℤ) + 2) (ascii "b")

theorem ranked_emptyKey (x : ℕ) : Ranked [((1 : ℤ), ascii "a"), ((x : ℤ) + 2, ascii "b")] := by
  have hab : ascii "a" ≠ ascii "b" := by decide
  refine List.pairwise_pair.mpr ⟨?_, hab⟩
  show (1 : ℤ) ≤ (x : ℤ) + 2
  omega

/-- A change of the only table. -/
theorem Db.insert_of_entries {d : Db ℤ} {key : Bytes} {s s' : SortSet ℤ Bytes} {lvl : Lvl}
    {score : ℤ} {data : Bytes} {ret : Bool} (hd : d.dbDict.entries = [(key, s)])
    (hup : s.update lvl score data = some (ret, s')) :
    ∃ d', d.insert lvl key score data = some (ret, d') ∧ d'.dbDict.entries = [(key, s')] := by
  have hf : d.dbDict.find key = some s := Dict.find_eq_some.mpr (by simp [hd])
  have hopen : Db.openTable key d.dbDict = d.dbDict := by simp [Db.openTable, hf]
  exact ⟨{ d with dbDict := d.dbDict.modify key fun _ => s' },
    by simp [Db.insert, hopen, hf, hup], by simp [Dict.modify, hd]⟩

/-- The table after `n + 1` positions of `b`. -/
theorem run_emptyKeyOps (c : Codecs ℤ) : ∀ n : ℕ, ∃ d s,
    run (DbOp.step c) (emptyKeyOps (n + 1)) Db.new = some d ∧ d.dbDict.entries = [([], s)] ∧
      Holds s [(1, ascii "a"), (n + 2, ascii "b")] ∧ s.sl.lenth = 2 * UInt64.ofNat (n + 1)
  | 0 => by
      obtain ⟨d1, s1, hdb1, hent1, hlen1, h1⟩ :=
        Db.insert_new (α := ℤ) ⟨1, by decide⟩ [] 1 (ascii "a")
      obtain ⟨s2, hins, hlen2, h2⟩ := h1.insert_last ⟨1, by decide⟩
        (m := (((0 : ℕ) : ℤ) + 2, ascii "b")) (ranked_emptyKey 0)
      have hnone : s1.dict (ascii "b") = none := by
        rw [Option.eq_none_iff_forall_ne_some]
        intro key hk
        rw [h1.dict] at hk
        simp [ascii] at hk
      have hup : s1.update ⟨1, by decide⟩ (((0 : ℕ) : ℤ) + 2) (ascii "b") = some (true, s2) := by
        simpa [SortSet.update, hnone] using hins
      obtain ⟨d2, hdb2, hent⟩ := Db.insert_of_entries hent1 hup
      refine ⟨d2, s2, ?_, hent, h2, by rw [hlen2, hlen1]; rfl⟩
      show run (DbOp.step c) [.insert _ [] 1 (ascii "a"),
        .insert _ [] (((0 : ℕ) : ℤ) + 2) (ascii "b")] Db.new = some d2
      rw [run_cons]
      exact ⟨_, by rw [DbOp.step, hdb1]; rfl, run_cons.mpr ⟨d2, by rw [DbOp.step, hdb2]; rfl, rfl⟩⟩
  | n + 1 => by
      obtain ⟨d, s, hrun, hent, h, hlen⟩ := run_emptyKeyOps c n
      obtain ⟨s', hup, hlen', h'⟩ := Holds.update_last
        (show Holds s ([(1, ascii "a")] ++ [((n : ℤ) + 2, ascii "b")]) from h) (ranked_emptyKey n)
        (show Ranked ([(1, ascii "a")] ++ [(((n + 1 : ℕ) : ℤ) + 2, ascii "b")]) from
          ranked_emptyKey (n + 1)) rfl (by simp) ⟨1, by decide⟩
      obtain ⟨d', hins, hent'⟩ := Db.insert_of_entries hent hup
      refine ⟨d', s', ?_, hent', h', ?_⟩
      · have hops : emptyKeyOps (n + 1 + 1) = emptyKeyOps (n + 1) ++
            [.insert ⟨1, by decide⟩ [] (((n + 1 : ℕ) : ℤ) + 2) (ascii "b")] := by
          rw [emptyKeyOps, emptyKeyOps, List.range_succ (n := n + 1), List.map_append,
            List.cons_append]
          rfl
        rw [hops, run_concat]
        exact ⟨d, hrun, by rw [DbOp.step, hins]; rfl⟩
      · rw [hlen', hlen, show UInt64.ofNat (n + 1 + 1) = UInt64.ofNat (n + 1) + 1 from
          UInt64.ofNat_add _ _]
        grind

/-- The wire format of the messages of a database with one table, under the empty key,
holding `a` at score `1` and `b` at score `2 ^ 31 + 1`; its `size()` is `0`. -/
def emptyKey : Codecs ℤ where
  version := oneTable.version
  db := oneTable.db
  table := .ofTable [(⟨[], 0⟩, [])] (by decide)
  key := .ofTable [(⟨[], []⟩, []), (⟨[1, 2 ^ 31 + 1], [ascii "a", ascii "b"]⟩,
    [0x0A, 16, 0, 0, 0, 0, 0, 0, 0xF0, 0x3F, 0, 0, 0x20, 0, 0, 0, 0xE0, 0x41,
      0x12, 1, 0x61, 0x12, 1, 0x62])] (by decide)

omit [LinearOrder α] [Neg α] [One α] in
/-- A TABLE record without a body: only its type byte is stored. -/
theorem saveTables_emptyBody (c : Codecs α) {e : Bytes × SortSet α Bytes}
    (hbody : c.table.serializeAsString (tableMsg e.1 e.2) = []) (s : Saver) :
    saveTables c .allOk [e] s =
      some ⟨s.content ++ [MsgNodeType.table.toByte], s.errors ++ [.table e.1]⟩ := by
  have hbody' : c.table.serializeAsString ⟨e.1, e.2.size.toUInt64⟩ = [] := hbody
  simp [saveTables, saveTable, saveRecord, saveObj, saveType, fileWrite, SaveEnv.allOk,
    saveRawString, hbody']

/-- The bytes of VERSION and DB record. -/
def emptyKeyHeader : Bytes :=
  record .version (emptyKey.version.serializeAsString (dbVer epoch)) ++
    record .db (emptyKey.db.serializeAsString db1)

/-- The file of a database with one table whose TABLE record has no body. -/
theorem save_emptyKey {d : Db ℤ} {s : SortSet ℤ Bytes} (hent : d.dbDict.entries = [([], s)])
    (hsize : s.size = 0) (files : Files) :
    saveToFile emptyKey .allOk epoch d ⟨d.dbDict.entries, List.Perm.refl _⟩ files =
      some (0, [.table []], ⟨some (emptyKeyHeader ++ [2]), none⟩) := by
  have hversion : saveRecord emptyKey.version .allOk .version (dbVer epoch) .version ⟨[], []⟩ =
      (47, ⟨record .version (emptyKey.version.serializeAsString (dbVer epoch)), []⟩) := by
    decide +kernel
  have hdb : saveRecord emptyKey.db .allOk .db db1 .db
      ⟨record .version (emptyKey.version.serializeAsString (dbVer epoch)), []⟩ =
      (4, ⟨emptyKeyHeader, []⟩) := by decide +kernel
  have hbody : emptyKey.table.serializeAsString (tableMsg [] s) = [] := by
    rw [tableMsg, hsize]
    decide
  have htab := saveTables_emptyBody emptyKey (e := ([], s)) hbody ⟨emptyKeyHeader, []⟩
  rw [saveToFile, hversion]
  simp only [hdb, hent, htab]
  rfl

/-- The empty key: the state of the table is saved and lost. -/
theorem emptyKey_lost :
    ∃ d, run (DbOp.step emptyKey) (emptyKeyOps (2 ^ 31)) Db.new = some d ∧ d.Sound ∧
      emptyKey.Inverts epoch d ∧ ∃ F errs files' s',
        saveToFile emptyKey .allOk epoch d ⟨d.dbDict.entries, List.Perm.refl _⟩ ⟨none, none⟩ =
          some (0, errs, files') ∧
        files'.dbFile = some F ∧
        checkDbFileAndLoad emptyKey (fun _ => ⟨1, by decide⟩) (some F) Db.new = some (0, s') ∧
        ¬ SameTables s'.db d := by
  obtain ⟨d, s, hrun, hent, h, hlen⟩ := run_emptyKeyOps emptyKey (2 ^ 31 - 1)
  rw [show 2 ^ 31 - 1 + 1 = 2 ^ 31 by decide] at hrun hlen
  have hsize : s.size = 0 := by
    rw [SortSet.size, SkipList.lenth32, hlen]
    decide
  have hfind : ∀ {key t}, d.dbDict.find key = some t ↔ key = [] ∧ t = s := by
    intro key t
    rw [Dict.find_eq_some, hent, List.mem_singleton, Prod.mk.injEq]
  have hscore : (((2 ^ 31 - 1 : ℕ) : ℤ) + 2) = 2 ^ 31 + 1 := by decide
  rw [hscore] at h
  refine ⟨d, hrun, ?_, ?_, emptyKeyHeader ++ [2], [.table []],
    ⟨some (emptyKeyHeader ++ [2]), none⟩, ?_⟩
  · intro key t ht
    obtain ⟨rfl, rfl⟩ := hfind.mp ht
    refine ⟨by rw [h.members_eq]; simp, h.agrees ?_⟩
    rw [← hscore]
    exact ranked_emptyKey _
  · have hmem : ∀ {e}, e ∈ d.dbDict.entries → e = ([], s) := fun he => by
      rwa [hent, List.mem_singleton] at he
    refine ⟨by decide, by decide, fun e he => ?_, fun e he g hg => ?_⟩
    · have hmsg : tableMsg [] s = ⟨[], 0⟩ := by rw [tableMsg, hsize]; rfl
      rw [hmem he, hmsg]
      decide
    · have hgroups : groupsOf [] [((1 : ℤ), ascii "a"), (2 ^ 31 + 1, ascii "b")] =
          [[(1, ascii "a"), (2 ^ 31 + 1, ascii "b")]] := rfl
      rw [hmem he, h.members_eq, hgroups, List.mem_singleton] at hg
      rw [hg]
      decide
  · have hload : (checkDbFileAndLoad emptyKey (fun _ => ⟨1, by decide⟩)
        (some (emptyKeyHeader ++ [2])) Db.new).any
          (fun r => decide (r.1 = 0) && (r.2.db.dbDict.find []).isNone) = true := by
      decide +kernel
    obtain ⟨⟨ret, s'⟩, hload, hfacts⟩ := (Option.any_eq_true _ _).mp hload
    simp only [Bool.and_eq_true, decide_eq_true_eq, Option.isNone_iff_eq_none] at hfacts
    obtain ⟨rfl, hlost⟩ := hfacts
    refine ⟨s', save_emptyKey hent hsize _, rfl, hload, fun hsame => ?_⟩
    have hkey := hsame []
    rw [hlost, hfind.mpr ⟨rfl, rfl⟩] at hkey
    cases hkey

end LibC
