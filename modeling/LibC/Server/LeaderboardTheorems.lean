/-
LibC.Server.LeaderboardTheorems — the server is a leaderboard.

A table shows a board when it holds the entries of the board in their order, and
its `lenth_` is large enough not to hide any (`TableShows`). Setting a member
moves a table and its board alike as long as no members are tied
(`TableShows.update`): `Delete` then finds the node, and so does `GetRank`. With
the queries answered from the list, `handle_shows` says of one request that the
server answers what the boards answer, and `run_leaderboard` of every run that
the bytes that go out are those of `Boards.feed`: the heights drawn, and whatever
else the environment decides, leave no trace in them.

No `sorry`, no `axiom`, no `native_decide`.
-/
import LibC.Server.Leaderboard
import LibC.Server.RoundTripTheorems
import LibC.SkipList.OrderTheorems

namespace LibC

open LibC.Lib

variable {α : Type} [LinearOrder α] [Neg α] [One α]
variable {s : SortSet α Bytes} {ms : List (α × Bytes)}

/-! ## One table -/

omit [Neg α] [One α] in
/-- In a ranked list, what comes no later than an entry has no larger score. -/
theorem Ranked.le_of_last {xs ys : List (α × Bytes)} {x : α} (hr : Ranked (xs ++ ys))
    (hlast : ∀ a, xs.getLast? = some a → a.1 ≤ x) : ∀ a ∈ xs, a.1 ≤ x := by
  intro a ha
  rcases List.eq_nil_or_concat xs with rfl | ⟨zs, z, rfl⟩
  · cases ha
  · rw [List.concat_eq_append] at hr hlast ha
    have hz : z.1 ≤ x := hlast z List.getLast?_concat
    rcases List.mem_append.mp ha with ha | ha
    · have hpair := (List.pairwise_append.mp (List.pairwise_append.mp hr).1).2.2 a ha z
        (List.mem_singleton_self z)
      exact le_trans hpair.1 hz
    · rw [List.mem_singleton.mp ha]
      exact hz

/-- A new member takes its place. -/
theorem Holds.insert (h : Holds s ms) (hr : Ranked ms) (lvl : Lvl) (score : α) {data : Bytes}
    (hnew : s.dict data = none) :
    ∃ s', s.insert lvl score data = some (true, s') ∧ s'.sl.lenth = s.sl.lenth + 1 ∧
      Holds s' (Board.place (score, data) ms) := by
  obtain ⟨ps, ts, r, hms⟩ := h.repr
  have hpairs : s.sl.pairs = ms := r.pairs_eq.trans hms
  have hfresh : (score, data) ∉ s.sl.pairs := by
    rw [hpairs]
    intro hmem
    rw [(h.dict data score).mpr hmem] at hnew
    cases hnew
  obtain ⟨sl', ps', ts', hins, r', ⟨xs, ys, hsplit, hplace, hlast, hhigh⟩, _⟩ :=
    r.insert_behind lvl hfresh
  obtain ⟨_, sl1, hins1, _, hlen, _⟩ := LibC.insert_spec r lvl score data
  obtain ⟨_, rfl⟩ := Prod.mk.inj (Option.some.inj (hins.symm.trans hins1))
  rw [hpairs] at hsplit
  have hlow := Ranked.le_of_last (hsplit ▸ hr) hlast
  have hentries : sl'.pairs = Board.place (score, data) ms := by
    rw [hplace, hsplit, Board.place_eq hlow hhigh]
  refine ⟨⟨sl', Function.update s.dict data (some score)⟩,
    by simp [SortSet.insert, hnew, hins], hlen,
    ⟨_, ts', r', by rw [← r'.pairs_eq]; exact hentries⟩, fun q key => ?_⟩
  rw [(Board.perm_place _ _).mem_iff, List.mem_cons, Prod.mk.injEq]
  show Function.update s.dict data (some score) q = some key ↔ _
  by_cases hq : q = data
  · subst hq
    have hno : (key, q) ∉ ms := fun hmem => by
      rw [(h.dict q key).mpr hmem] at hnew
      cases hnew
    simp [hno, eq_comm]
  · rw [Function.update_of_ne hq, h.dict]
    simp [hq]

omit [Neg α] [One α] in
/-- Dropping the one entry of a member. -/
theorem filter_eq_eraseIdx {ms : List (α × Bytes)} (hr : Ranked ms) {k : ℕ} {a : α × Bytes}
    (hk : ms[k]? = some a) : ms.filter (fun b => decide (b.2 ≠ a.2)) = ms.eraseIdx k := by
  obtain ⟨hlt, rfl⟩ := List.getElem?_eq_some_iff.mp hk
  have hne : ∀ (j : ℕ) (hj : j < ms.length), j ≠ k → ms[j].2 ≠ ms[k].2 := by
    intro j hj hjk
    rcases Nat.lt_or_gt_of_ne hjk with h | h
    · exact (List.pairwise_iff_getElem.mp hr j k hj hlt h).2
    · exact (List.pairwise_iff_getElem.mp hr k j hlt hj h).2.symm
  have hsplit : ms = ms.take k ++ ms[k] :: ms.drop (k + 1) := by
    rw [← List.drop_eq_getElem_cons hlt, List.take_append_drop]
  have htake : (ms.take k).filter (fun b => decide (b.2 ≠ ms[k].2)) = ms.take k := by
    refine List.filter_eq_self.mpr fun b hb => ?_
    obtain ⟨j, hj, rfl⟩ := List.mem_iff_getElem.mp hb
    rw [List.length_take] at hj
    rw [List.getElem_take]
    exact decide_eq_true (hne j (by omega) (by omega))
  have hdrop : (ms.drop (k + 1)).filter (fun b => decide (b.2 ≠ ms[k].2)) = ms.drop (k + 1) := by
    refine List.filter_eq_self.mpr fun b hb => ?_
    obtain ⟨j, hj, rfl⟩ := List.mem_iff_getElem.mp hb
    rw [List.length_drop] at hj
    rw [List.getElem_drop]
    exact decide_eq_true (hne _ (by omega) (by omega))
  calc ms.filter (fun b => decide (b.2 ≠ ms[k].2))
      = (ms.take k ++ ms[k] :: ms.drop (k + 1)).filter fun b => decide (b.2 ≠ ms[k].2) := by
        rw [← hsplit]
    _ = ms.take k ++ ms.drop (k + 1) := by
        rw [List.filter_append, List.filter_cons_of_neg (by simp), htake, hdrop]
    _ = ms.eraseIdx k := (List.eraseIdx_eq_take_drop_succ ms k).symm

omit [Neg α] [One α] in
/-- In a ranked list a member stands at one position. -/
theorem Ranked.position {ts : List (Tower α Bytes)}
    (hr : Ranked (ts.map fun t => (t.score, t.val))) {i j : ℕ} {a b : Tower α Bytes}
    (ha : ts[i]? = some a) (hb : ts[j]? = some b) (hv : a.val = b.val) : i = j := by
  have hne : ∀ (i j : ℕ) (a b : Tower α Bytes), i < j → ts[i]? = some a → ts[j]? = some b →
      a.val ≠ b.val := by
    intro i j a b hlt ha hb
    obtain ⟨hi, rfl⟩ := List.getElem?_eq_some_iff.mp ha
    obtain ⟨hj, rfl⟩ := List.getElem?_eq_some_iff.mp hb
    exact (List.pairwise_iff_getElem.mp (List.pairwise_map.mp hr) i j hi hj hlt).2
  rcases Nat.lt_trichotomy i j with hlt | heq | hgt
  · exact absurd hv (hne i j a b hlt ha hb)
  · exact heq
  · exact absurd hv.symm (hne j i b a hgt hb ha)

omit [Neg α] [One α] in
/-- Where nothing is tied with a member, nothing taller is. -/
theorem Ranked.noTallerTie {ts : List (Tower α Bytes)}
    (hr : Ranked (ts.map fun t => (t.score, t.val))) {score : α} {data : Bytes}
    (huntied : ∀ t ∈ ts, t.score = score → t.val = data) : NoTallerTie score data ts := by
  intro i j a b hij ha hb _ hav hbs
  have hbv := huntied b (List.mem_of_getElem? hb) hbs
  exact absurd (hr.position ha hb (hav.trans hbv.symm)) hij.ne

/-- A member without a tie is taken out. -/
theorem Holds.delMem (h : Holds s ms) (hr : Ranked ms) {score : α} {data : Bytes}
    (hmem : (score, data) ∈ ms) (huntied : ∀ a ∈ ms, a.1 = score → a.2 = data) :
    ∃ s', s.delMem data = some (true, s') ∧ s'.sl.lenth = s.sl.lenth + 1 ∧
      s'.dict data = none ∧ Holds s' (ms.filter fun a => decide (a.2 ≠ data)) := by
  obtain ⟨ps, ts, r, rfl⟩ := h.repr
  have hd : s.dict data = some score := (h.dict _ _).mpr hmem
  obtain ⟨k, hk⟩ := List.mem_iff_getElem?.mp hmem
  obtain ⟨t, ht, heq⟩ := Option.map_eq_some_iff.mp (List.getElem?_map.symm.trans hk)
  obtain ⟨rfl, rfl⟩ := Prod.mk.inj heq
  obtain ⟨stops, desc, hdel⟩ := LibC.delete_spec r t.score t.val
  have hstop : stops 0 = k :=
    (stop_eq_iff r desc ht rfl rfl fun j t' hj _ hv => hr.position hj ht hv).mpr
      (hr.noTallerTie fun t' ht' hs => huntied _ (List.mem_map_of_mem ht') hs)
  rcases hdel with ⟨t', sl', _, _, _, hdel, hlenth, r'⟩ | ⟨hmiss, _⟩
  · rw [hstop] at r'
    have hfilter := filter_eq_eraseIdx hr hk
    refine ⟨⟨sl', Function.update s.dict t.val none⟩, by simp [SortSet.delMem, hd, hdel], hlenth,
      Function.update_self _ _ _, ⟨_, _, r', ?_⟩, fun q key => ?_⟩
    · rw [hfilter, List.eraseIdx_map]
    · show Function.update s.dict t.val none q = some key ↔ _
      rw [List.mem_filter, decide_eq_true_eq]
      by_cases hq : q = t.val
      · simp [hq]
      · rw [Function.update_of_ne hq, h.dict]
        simp [hq]
  · rw [hstop] at hmiss
    exact absurd ⟨rfl, rfl⟩ (hmiss t ht)

/-- The table shows a board: its entries in their order; and `lenth_`, which counts what was
inserted and taken out since the table was made, is not below their number. `n` bounds the
number of members set. -/
structure TableShows (n : ℕ) (s : SortSet α Bytes) (b : Board α Bytes) : Prop where
  holds : Holds s b.entries
  enough : b.entries.length ≤ s.sl.lenth.toNat
  few : s.sl.lenth.toNat ≤ 2 * n

theorem tableShows_new (n : ℕ) : TableShows n (SortSet.new : SortSet α Bytes) Board.empty where
  holds := holds_new
  enough := Nat.zero_le _
  few := Nat.zero_le _

theorem TableShows.mono {n m : ℕ} {b : Board α Bytes} (h : TableShows n s b) (hnm : n ≤ m) :
    TableShows m s b :=
  ⟨h.holds, h.enough, h.few.trans (Nat.mul_le_mul_left 2 hnm)⟩

/-- The dictionary of the table has the scores of the board. -/
theorem TableShows.dict_eq {n : ℕ} {b : Board α Bytes} (h : TableShows n s b) (data : Bytes) :
    s.dict data = b.score? data := by
  refine Option.ext fun key => ?_
  rw [h.holds.dict, Board.score?_eq_some]

/-- `Update` of a table is `set` of its board, when its members are not tied. -/
theorem TableShows.update {n : ℕ} {b : Board α Bytes} (h : TableShows n s b) (hn : n < 2 ^ 31)
    (hd : b.Distinct) (lvl : Lvl) (score : α) (data : Bytes) :
    ∃ s', s.update lvl score data = some (true, s') ∧ TableShows (n + 1) s' (b.set score data) := by
  have hfew := h.few
  have henough := h.enough
  have hlook := h.dict_eq data
  have hsucc : ∀ {x y : UInt64}, x = y + 1 → y.toNat < 2 ^ 63 → x.toNat = y.toNat + 1 := by
    rintro x y rfl hy
    rw [UInt64.toNat_add, UInt64.toNat_one]
    omega
  by_cases hsame : b.score? data = some score
  · -- nothing changes
    rw [hsame] at hlook
    refine ⟨s, by simp [SortSet.update, hlook], ?_⟩
    rw [Board.set, if_pos hsame]
    exact h.mono (Nat.le_succ n)
  · have hset := Board.entries_set hsame
    cases hold : b.score? data with
    | none =>
        rw [hold] at hlook
        obtain ⟨s', hins, hlen, h'⟩ := h.holds.insert b.ranked lvl score hlook
        have hlen' := hsucc hlen (by omega)
        have hall : b.entries.filter (fun a => decide (a.2 ≠ data)) = b.entries := by
          refine List.filter_eq_self.mpr fun a ha => decide_eq_true ?_
          rintro rfl
          rw [Board.score?_eq_some.mpr ha] at hold
          cases hold
        refine ⟨s', by simp [SortSet.update, hlook, hins], ⟨by rw [hset, hall]; exact h', ?_, ?_⟩⟩
        · rw [hset, hall, (Board.perm_place _ _).length_eq, List.length_cons]
          omega
        · omega
    | some old =>
        rw [hold] at hlook
        have hmem := Board.score?_eq_some.mp hold
        have hne : old ≠ score := fun heq => hsame (heq ▸ hold)
        obtain ⟨s1, hdel, hlen1, hnone, h1⟩ := h.holds.delMem b.ranked hmem
          fun a ha heq => hd a ha _ hmem heq
        have hr1 : Ranked (b.entries.filter fun a => decide (a.2 ≠ data)) := b.ranked.filter _
        obtain ⟨s', hins, hlen2, h'⟩ := h1.insert hr1 lvl score hnone
        have hlen1' := hsucc hlen1 (by omega)
        have hlen2' := hsucc hlen2 (by omega)
        have hle := List.length_filter_le (fun a : α × Bytes => decide (a.2 ≠ data)) b.entries
        refine ⟨s', by simp [SortSet.update, hlook, hne, hdel, hins],
          ⟨by rw [hset]; exact h', ?_, ?_⟩⟩
        · rw [hset, (Board.perm_place _ _).length_eq, List.length_cons]
          omega
        · omega

/-- `GetMemRank` is the rank on the board. -/
theorem TableShows.getMemRank {n : ℕ} {b : Board α Bytes} (h : TableShows n s b)
    (hn : n < 2 ^ 31) (hd : b.Distinct) (m : Bytes) :
    s.getMemRank m = some ((b.rank? m).map UInt64.ofNat) := by
  have hlook := h.dict_eq m
  cases hs : b.score? m with
  | none =>
      rw [hs] at hlook
      simp [SortSet.getMemRank, hlook, Board.rank?_eq_none hs]
  | some score =>
      rw [hs] at hlook
      have hmem := Board.score?_eq_some.mp hs
      have hr : Ranked b.entries := b.ranked
      obtain ⟨ps, ts, r, hts⟩ := h.holds.repr
      obtain ⟨k, hk⟩ := List.mem_iff_getElem?.mp hmem
      have hlt := (List.getElem?_eq_some_iff.mp hk).1
      have hrank := Board.rank?_eq_some hk
      rw [← hts] at hk hr
      obtain ⟨t, ht, heq⟩ := Option.map_eq_some_iff.mp (List.getElem?_map.symm.trans hk)
      obtain ⟨rfl, rfl⟩ := Prod.mk.inj heq
      have hlen : ts.length = b.entries.length := by rw [← hts, List.length_map]
      have henough := h.enough
      have hfew := h.few
      have tg : Target ts t.score t.val (k + 1) :=
        ⟨Nat.succ_pos k, ⟨t, ht, rfl, rfl⟩, fun m t' hm ht' hv => by
          have := hr.position ht' ht hv
          omega⟩
      have htie : NoTallerTie t.score t.val ts := hr.noTallerTie fun t' ht' hst => by
        have hmem' : (t'.score, t'.val) ∈ b.entries := hts ▸ List.mem_map_of_mem ht'
        exact hd _ hmem' _ hmem hst
      have hfit : SpansFit ts t.score (k + 1) := fun lvl i hi p q hpq _ _ hq _ => by
        have := hpq.lt
        omega
      obtain ⟨rank, hget, hiff⟩ := r.getRank_spec tg
      have hnat := hiff.mpr ⟨htie, hfit, by omega⟩
      have hrank' : rank = UInt64.ofNat (k + 1) := by rw [← hnat, UInt64.ofNat_toNat]
      simp [SortSet.getMemRank, hlook, hget, hrank', hrank]

/-- `FirstInRangeByIdx` finds the entry of the board. -/
theorem TableShows.firstInRangeByIdx {n : ℕ} {b : Board α Bytes} (h : TableShows n s b)
    (hn : n < 2 ^ 31) (hne : b.entries ≠ []) : ∃ ps ts, Repr s.sl ps ts ∧ ts ≠ [] ∧
      s.members = b.entries ∧ ∀ x y : UInt64, s.sl.firstInRangeByIdx x y =
        some ⟨if x.toNat - 1 < y.toNat then ps[x.toNat - 1]? else none, none⟩ := by
  obtain ⟨ps, ts, r, hts⟩ := h.holds.repr
  have hne' : ts ≠ [] := by
    rintro rfl
    exact hne hts.symm
  have hlen : ts.length = b.entries.length := by rw [← hts, List.length_map]
  have henough := h.enough
  have hfew := h.few
  refine ⟨ps, ts, r, hne', h.holds.members_eq, fun x y => ?_⟩
  rw [r.firstInRangeByIdx_spec hne' (linksFit_of_length (by omega)) (by omega) x y]
  by_cases hx : x.toNat ≤ s.sl.lenth.toNat
  · simp only [hx, true_and]
  · have hps := r.len
    rw [if_neg fun hc => hx hc.1, List.getElem?_eq_none (by omega), ite_self]

/-! ## The database -/

/-- The database shows the boards, each in its table, after `n` members have been set. -/
structure Shows (n : ℕ) (d : Db α) (bs : Boards α) : Prop where
  table : ∀ key s, d.dbDict.find key = some s → TableShows n s (bs key) ∧ (bs key).entries ≠ []
  missing : ∀ key, d.dbDict.find key = none → (bs key).entries = []
  distinct : ∀ key, (bs key).Distinct

theorem shows_new : Shows 0 (Db.new : Db α) Boards.empty where
  table key s h := by
    rw [Db.new, Dict.find_empty] at h
    cases h
  missing _ _ := rfl
  distinct _ := Board.distinct_empty

namespace Shows

variable {n : ℕ} {d : Db α} {bs : Boards α}

theorem mono {m : ℕ} (h : Shows n d bs) (hnm : n ≤ m) : Shows m d bs where
  table key s hs := ⟨(h.table key s hs).1.mono hnm, (h.table key s hs).2⟩
  missing := h.missing
  distinct := h.distinct

theorem of_errOnly (h : Shows n d bs) {d' : Db α} (hd : d.ErrOnly d') : Shows n d' bs := by
  obtain ⟨err, rfl⟩ := hd
  exact ⟨h.table, h.missing, h.distinct⟩

/-- Its tables have members. -/
theorem live (h : Shows n d bs) : d.Live := by
  intro key s hs
  obtain ⟨ht, hne⟩ := h.table key s hs
  have hr : Ranked (bs key).entries := (bs key).ranked
  obtain ⟨ps, ts, r, hts⟩ := ht.holds.repr
  obtain ⟨⟨score, m⟩, hm⟩ := List.exists_mem_of_ne_nil _ hne
  refine ⟨⟨ps, ts, r, fun data key hd => ?_⟩, m, ?_⟩
  · have hmem := (ht.holds.dict data key).mp hd
    rw [← hts] at hmem
    obtain ⟨t, ht', heq⟩ := List.mem_map.mp hmem
    exact ⟨t, ht', (Prod.mk.inj heq).2, (Prod.mk.inj heq).1⟩
  · rw [(ht.holds.dict m score).mpr hm]
    exact Option.some_ne_none score

/-- The score of a member. -/
theorem lookup_eq (h : Shows n d bs) (key m : Bytes) : d.lookup key m = (bs key).score? m := by
  cases hf : d.dbDict.find key with
  | none => simp [Db.lookup, hf, Board.score?, h.missing key hf]
  | some s => simp [Db.lookup, hf, (h.table key s hf).1.dict_eq m]

/-- The rank of a member. -/
theorem getMemRank (h : Shows n d bs) (hn : n < 2 ^ 31) (key m : Bytes) :
    ∃ d1, d.getMemRank key m = some (((bs key).rank? m).map UInt64.ofNat, d1) := by
  cases hf : d.dbDict.find key with
  | none =>
      exact ⟨{ d with strErr := "Key is not exist!" }, by
        simp [Db.getMemRank, hf, Board.rank?, h.missing key hf]⟩
  | some s =>
      have hrank := (h.table key s hf).1.getMemRank hn (h.distinct key) m
      cases hr : (bs key).rank? m with
      | none =>
          exact ⟨{ d with strErr := "Data is not exist!" }, by
            simp [Db.getMemRank, hf, hrank, hr]⟩
      | some k => exact ⟨{ d with strErr := "" }, by simp [Db.getMemRank, hf, hrank, hr]⟩

/-- Setting a member. -/
theorem insert (h : Shows n d bs) (hn : n < 2 ^ 31) (lvl : Lvl) (key : Bytes) (score : α)
    (data : Bytes) (hfree : (bs key).Free score data) :
    ∃ d', d.insert lvl key score data = some (true, d') ∧
      Shows (n + 1) d' (bs.set key score data) := by
  have hself : TableShows n ((d.dbDict.find key).getD SortSet.new) (bs key) := by
    cases hf : d.dbDict.find key with
    | none =>
        have hnil : bs key = Board.empty := by
          cases hb : bs key with
          | mk entries ranked =>
              have hent := h.missing key hf
              rw [hb] at hent
              cases hent
              rfl
        rw [hnil]
        exact tableShows_new n
    | some s => exact (h.table key s hf).1
  obtain ⟨s', hup, hs'⟩ := hself.update hn (h.distinct key) lvl score data
  have hopen : (Db.openTable key d.dbDict).find key =
      some ((d.dbDict.find key).getD SortSet.new) := by rw [find_openTable, if_pos rfl]
  have hfind : ∀ q, ((Db.openTable key d.dbDict).modify key fun _ => s').find q =
      if q = key then some s' else d.dbDict.find q := by
    intro q
    rw [Dict.find_modify]
    by_cases hq : q = key
    · rw [if_pos hq, if_pos hq, hq, hopen, Option.map_some]
    · rw [if_neg hq, if_neg hq, find_openTable, if_neg hq]
  refine ⟨{ d with dbDict := (Db.openTable key d.dbDict).modify key fun _ => s' },
    by simp [Db.insert, hopen, hup], fun q s hs => ?_, fun q hq => ?_, fun q => ?_⟩
  · rw [hfind] at hs
    by_cases hq : q = key
    · subst hq
      rw [if_pos rfl] at hs
      obtain rfl := Option.some.inj hs
      rw [Boards.set, Function.update_self]
      exact ⟨hs', List.ne_nil_of_mem (Board.mem_set.mpr (Or.inl rfl))⟩
    · rw [if_neg hq] at hs
      rw [Boards.set, Function.update_of_ne hq]
      exact ⟨(h.table q s hs).1.mono (Nat.le_succ n), (h.table q s hs).2⟩
  · rw [hfind] at hq
    by_cases hqk : q = key
    · rw [if_pos hqk] at hq
      cases hq
    · rw [if_neg hqk] at hq
      rw [Boards.set, Function.update_of_ne hqk]
      exact h.missing q hq
  · by_cases hqk : q = key
    · subst hqk
      rw [Boards.set, Function.update_self]
      exact (h.distinct q).set hfree
    · rw [Boards.set, Function.update_of_ne hqk]
      exact h.distinct q

/-- The loop of `ProcessDbSet`. -/
theorem setLoop (heights : ℕ → Lvl) (key : Bytes) : ∀ (xs : List (MsgSetMemData α)) (i n : ℕ)
    (rsp : MsgSetBatchRsp) (d : Db α) (bs : Boards α), Shows n d bs → n + xs.length < 2 ^ 31 →
    Boards.UntiedSets key xs bs → ∃ d', LibC.setLoop heights key i xs rsp d =
      some ({ rsp with succNum := rsp.succNum + xs.length }, d') ∧
        Shows (n + xs.length) d' (bs.setAll key xs)
  | [], i, n, rsp, d, bs, h, _, _ => ⟨d, by simp [LibC.setLoop], h⟩
  | x :: xs, i, n, rsp, d, bs, h, hn, hu => by
      rw [List.length_cons] at hn
      obtain ⟨d1, hins, h1⟩ := h.insert (by omega) (heights i) key x.score x.data hu.1
      obtain ⟨d', hrun, h'⟩ := setLoop heights key xs (i + 1) (n + 1)
        { rsp with succNum := rsp.succNum + 1 } d1 _ h1 (by omega) hu.2
      have hnum : rsp.succNum + 1 + (xs.length : ℤ) = rsp.succNum + (x :: xs).length := by
        rw [List.length_cons, Nat.cast_add, Nat.cast_one]
        omega
      refine ⟨d', ?_, ?_⟩
      · simp only [LibC.setLoop, hins, if_true, Option.bind_eq_bind, Option.bind_some, hrun, hnum]
      · rwa [List.length_cons, Nat.add_comm xs.length, ← Nat.add_assoc]

/-! ## Queries -/

/-- A range of ranks. -/
theorem processDbRangeByRank (h : Shows n d bs) (hn : n < 2 ^ 31) (req : MsgRangeQueryReq) :
    ∃ d', LibC.processDbRangeByRank req d = some
      (⟨0, ascii "Succ.", (bs req.keyId).rankRange req.range.min req.range.max⟩, d') := by
  cases hf : d.dbDict.find req.keyId with
  | none =>
      obtain ⟨d', hproc⟩ := processDbRangeByRank_missing hf
      refine ⟨d', ?_⟩
      rw [hproc, Board.rankRange, h.missing _ hf]
      simp
  | some sset =>
      obtain ⟨ht, hne⟩ := h.table _ _ hf
      obtain ⟨ps, ts, r, hts⟩ := ht.holds.repr
      have hlen : ts.length = (bs req.keyId).entries.length := by rw [← hts, List.length_map]
      have henough := ht.enough
      have hfew := ht.few
      have hne' : ts ≠ [] := by
        rintro rfl
        exact hne hts.symm
      obtain ⟨d', hproc⟩ := processDbRangeByRank_found req hf
        ⟨ps, ts, r, hne', linksFit_of_length (by omega), by omega⟩
      refine ⟨d', ?_⟩
      rw [hproc, rankItems, Board.rankRange, ht.holds.members_eq]
      by_cases hin : req.range.min.toNat ≤ sset.sl.lenth.toNat
      · simp only [hin, true_and]
      · rw [if_neg fun hc => hin hc.1, List.drop_eq_nil_of_le (by omega), List.take_nil,
          numberedFrom_nil, ite_self]

/-- A range of scores. -/
theorem processDbRangeByScore (h : Shows n d bs) (hn : n < 2 ^ 31) (toScore : ToScore α)
    (req : MsgRangeQueryReq) : ∃ d', LibC.processDbRangeByScore toScore req d = some
      ((bs req.keyId).scoreRange (min (toScore.conv req.range.min) (toScore.conv req.range.max))
        (max (toScore.conv req.range.min) (toScore.conv req.range.max)), d') := by
  cases hf : d.dbDict.find req.keyId with
  | none =>
      have hnil := h.missing _ hf
      obtain ⟨d', hproc⟩ := processDbRangeByScore_missing toScore hf
      refine ⟨d', ?_⟩
      rw [hproc, Board.scoreRange, Board.between, hnil, List.filter_nil, Board.errText, if_pos hnil]
  | some sset =>
      obtain ⟨ht, hne⟩ := h.table _ _ hf
      obtain ⟨ps, ts, r, hts⟩ := ht.holds.repr
      have hne' : ts ≠ [] := by
        rintro rfl
        exact hne hts.symm
      obtain ⟨d', hproc⟩ := processDbRangeByScore_table r hne' toScore req hf _
        fun m => h.getMemRank hn req.keyId m
      refine ⟨d', ?_⟩
      rw [hproc, Board.scoreRange, Board.between, ht.holds.members_eq, membersBetween]
      cases hb : (bs req.keyId).entries.filter fun m => decide
          (min (toScore.conv req.range.min) (toScore.conv req.range.max) ≤ m.1 ∧
            m.1 ≤ max (toScore.conv req.range.min) (toScore.conv req.range.max)) with
      | nil => simp only [Board.errText, if_neg hne]
      | cons m ms =>
          have hfirst : (((bs req.keyId).rank? m.2).map UInt64.ofNat).getD 0 =
              UInt64.ofNat (((bs req.keyId).rank? m.2).getD 0) := by
            cases (bs req.keyId).rank? m.2 <;> rfl
          simp only [hfirst]

/-- The member at a rank. -/
theorem processDbTopQuery (h : Shows n d bs) (hn : n < 2 ^ 31) (req : MsgTopQueryReq) :
    ∃ d', LibC.processDbTopQuery req d = some ((bs req.keyId).topAnswer req.top, d') := by
  cases hf : d.dbDict.find req.keyId with
  | none =>
      have hnil := h.missing _ hf
      refine ⟨{ d with strErr := "Key is not exist!" }, (processDbTopQuery_missing hf).trans ?_⟩
      rw [Board.topAnswer, Board.nth, hnil, List.getElem?_nil, ite_self, Board.errText, if_pos hnil]
  | some sset =>
      obtain ⟨ht, hne⟩ := h.table _ _ hf
      obtain ⟨ps, ts, r, hne', hmem, hfirst⟩ := ht.firstInRangeByIdx hn hne
      have hlen : ps.length = (bs req.keyId).entries.length := by
        rw [r.len, ← hmem, SortSet.members, r.pairs_eq, List.length_map]
      by_cases h0 : req.top.toNat = 0
      · -- no rank is `0`
        have hpos : sset.sl.firstInRangeByIdx req.top req.top = some ⟨ps[ps.length]?, none⟩ := by
          rw [hfirst, if_neg (by omega), List.getElem?_eq_none (Nat.le_refl _)]
        refine ⟨{ d with strErr := rankErr ps[ps.length]? },
          (processDbTopQuery_table r hne' hf hpos).trans ?_⟩
        rw [Board.topAnswer, Board.nth, if_pos h0, Board.errText, if_neg hne, hmem, hlen,
          List.getElem?_eq_none (Nat.le_refl _)]
      · have hpos := hfirst req.top req.top
        rw [if_pos (by omega)] at hpos
        refine ⟨{ d with strErr := rankErr ps[req.top.toNat - 1]? }, ?_⟩
        rw [Board.topAnswer, Board.nth, if_neg h0, Board.errText, if_neg hne, ← hmem]
        exact processDbTopQuery_table r hne' hf hpos

/-- The ranks of some members. -/
theorem processDbRankQuery [Zero α] (h : Shows n d bs) (hn : n < 2 ^ 31) (junk : α)
    (req : MsgRankBatchQueryReq) : ∃ err, LibC.processDbRankQuery junk req d = some
      (⟨0, ascii "Succ.", req.memInfoList.map fun m => (bs req.keyId).rankItem m⟩,
        { d with strErr := err }) := by
  obtain ⟨err, hrun⟩ := rankQueryLoop_spec req.keyId junk _ (fun m => h.getMemRank hn req.keyId m)
    req.memInfoList [] d.strErr
  refine ⟨err, ?_⟩
  have hitem : ∀ m, rankAnswer junk (((bs req.keyId).rank? m).map UInt64.ofNat)
      (d.lookup req.keyId m) m = (bs req.keyId).rankItem m := by
    intro m
    rw [h.lookup_eq, Board.rankItem]
    cases hs : (bs req.keyId).score? m with
    | none =>
        rw [Board.rank?_eq_none hs]
        rfl
    | some score => cases (bs req.keyId).rank? m <;> rfl
  simp only [List.nil_append, hitem] at hrun
  simp only [LibC.processDbRankQuery, hrun]
  rfl

end Shows

/-! ## One request -/

/-- **One request.** The server answers what the boards answer, and shows the boards after
it. -/
theorem handle_shows [Zero α] {n : ℕ} {d : Db α} {bs : Boards α} (h : Shows n d bs)
    (toScore : ToScore α) (env : MsgEnv α) (req : Req α) (hn : n + req.entries.length < 2 ^ 31)
    (hu : Boards.Untied req bs) :
    ∃ d', handle toScore env req d = some (bs.answer toScore req, d') ∧
      Shows (n + req.entries.length) d' (bs.after req) := by
  have hn' : n < 2 ^ 31 := by omega
  -- a query leaves what it finds
  have hquery : ∀ {d'}, handle toScore env req d = some (bs.answer toScore req, d') →
      (∀ r, req ≠ .setBatch r) → bs.after req = bs →
      ∃ d', handle toScore env req d = some (bs.answer toScore req, d') ∧
        Shows (n + req.entries.length) d' (bs.after req) := by
    intro d' hrun hno hafter
    obtain ⟨rsp, d1, hrun1, _, _, hsame⟩ := handle_live h.live toScore env req
    obtain ⟨_, rfl⟩ := Prod.mk.inj (Option.some.inj (hrun.symm.trans hrun1))
    refine ⟨d', hrun, ?_⟩
    rw [hafter]
    exact (h.of_errOnly (hsame hno)).mono (Nat.le_add_right _ _)
  cases req with
  | setBatch req =>
      have hlen : (Req.setBatch req).entries.length = req.dataList.length := by
        rw [Req.entries, MsgSetBatchReq.entries, List.length_map]
      rw [hlen] at hn ⊢
      obtain ⟨d', hrun, h'⟩ := Shows.setLoop env.heights req.keyId req.dataList 0 n ⟨0, [], 0⟩ d bs
        h hn hu
      exact ⟨d', by simp [handle, processDbSet, hrun, Boards.answer], h'⟩
  | getScoreBatch req =>
      obtain ⟨err, hrun⟩ := getScoreLoop_spec req.keyId req.memDataList [] d
      have hget : handle toScore env (.getScoreBatch req) d =
          some (bs.answer toScore (.getScoreBatch req), { d with strErr := err }) := by
        simp only [handle, processDbGetScore, hrun, h.lookup_eq]
        rfl
      exact hquery hget (fun _ hc => by cases hc) rfl
  | rankBatchQuery req =>
      obtain ⟨err, hrun⟩ := h.processDbRankQuery hn' env.junk req
      exact hquery (by simp only [handle, hrun]; rfl) (fun _ hc => by cases hc) rfl
  | rangeQuery req =>
      obtain ⟨d', hrun⟩ := h.processDbRangeByRank hn' req
      exact hquery (by simp only [handle, hrun]; rfl) (fun _ hc => by cases hc) rfl
  | rangeByScoreQuery req =>
      obtain ⟨d', hrun⟩ := h.processDbRangeByScore hn' toScore req
      exact hquery (by simp only [handle, hrun]; rfl) (fun _ hc => by cases hc) rfl
  | topQuery req =>
      obtain ⟨d', hrun⟩ := h.processDbTopQuery hn' req
      exact hquery (by simp only [handle, hrun]; rfl) (fun _ hc => by cases hc) rfl

/-! ## Messages -/

namespace Boards

variable (c : MsgCodecs α)

omit [Neg α] [One α] in
theorem afterAll_append : ∀ (ms ms' : List Bytes) (bs : Boards α),
    afterAll c (ms ++ ms') bs = afterAll c ms' (afterAll c ms bs)
  | [], _, _ => rfl
  | m :: ms, ms', bs => by
      cases hr : c.request? m with
      | none => simpa only [List.cons_append, afterAll, hr] using afterAll_append ms ms' bs
      | some r => simpa only [List.cons_append, afterAll, hr] using afterAll_append ms ms' _

theorem feed_append [Zero α] (toScore : ToScore α) : ∀ (ms ms' : List Bytes) (bs : Boards α),
    feed c toScore (ms ++ ms') bs = feed c toScore ms bs ++ feed c toScore ms' (afterAll c ms bs)
  | [], _, _ => rfl
  | m :: ms, ms', bs => by
      cases hr : c.request? m with
      | none =>
          simpa only [List.cons_append, feed, afterAll, hr] using feed_append toScore ms ms' bs
      | some r =>
          simp only [List.cons_append, feed, afterAll, hr, feed_append toScore ms ms']

omit [Neg α] [One α] in
theorem untiedAll_append : ∀ (ms ms' : List Bytes) (bs : Boards α),
    UntiedAll c (ms ++ ms') bs ↔ UntiedAll c ms bs ∧ UntiedAll c ms' (afterAll c ms bs)
  | [], _, _ => by simp only [List.nil_append, UntiedAll, true_and, afterAll]
  | m :: ms, ms', bs => by
      cases hr : c.request? m with
      | none =>
          simpa only [List.cons_append, UntiedAll, afterAll, hr] using untiedAll_append ms ms' bs
      | some r =>
          simp only [List.cons_append, UntiedAll, afterAll, hr, untiedAll_append ms ms', and_assoc]

end Boards

namespace MsgLoop

variable [Zero α]

/-- One message. -/
theorem processMQMsg_shows {n : ℕ} {s : MsgLoop α} {bs : Boards α} (h : Shows n s.db bs)
    (c : MsgCodecs α) (toScore : ToScore α) (env : MsgEnv α) (data : Bytes)
    (hn : n + (c.entries [data]).length < 2 ^ 31) (hu : Boards.UntiedAll c [data] bs) :
    ∃ s', s.processMQMsg c toScore env data = some s' ∧
      Shows (n + (c.entries [data]).length) s'.db (Boards.afterAll c [data] bs) ∧
      s'.sent = s.sent ++ Boards.feed c toScore [data] bs := by
  -- a message that is not answered
  have hdrop : c.request? data = none →
      Shows (n + (c.entries [data]).length) s.db (Boards.afterAll c [data] bs) ∧
        s.sent = s.sent ++ Boards.feed c toScore [data] bs := fun hnone => by
    simp only [Boards.afterAll, Boards.feed, hnone, List.append_nil, and_true]
    exact h.mono (Nat.le_add_right _ _)
  unfold processMQMsg
  cases ht : c.transApp.parseFromString data with
  | none =>
      exact ⟨{ s with handled := s.handled ++ [data] }, rfl,
        hdrop (by simp [MsgCodecs.request?, ht])⟩
  | some t =>
      cases hreq : c.parse t with
      | none =>
          exact ⟨{ s with handled := s.handled ++ [data] }, by simp only [hreq],
            hdrop (by simp [MsgCodecs.request?, ht, hreq])⟩
      | some req =>
          have hask : c.request? data = some (t, req) := by simp [MsgCodecs.request?, ht, hreq]
          have hent : c.entries [data] = req.entries := by simp [MsgCodecs.entries, hask]
          simp only [Boards.UntiedAll, hask, and_true] at hu
          rw [hent] at hn
          obtain ⟨d', hrun, h'⟩ := handle_shows h toScore env req hn hu
          refine ⟨{ s with db := d', handled := s.handled ++ [data] }.respond c env t
              (bs.answer toScore req),
            by simp only [hreq, hrun, Option.bind_eq_bind, Option.bind_some], ?_, ?_⟩
          · simp only [Boards.afterAll, hask, hent]
            exact h'
          · simp only [respond, Boards.feed, hask]

/-- The messages of a round. -/
theorem processMsgs_shows (c : MsgCodecs α) (toScore : ToScore α) (env : ℕ → MsgEnv α) :
    ∀ (msgs : List Bytes) (i n : ℕ) (s : MsgLoop α) (bs : Boards α), Shows n s.db bs →
      n + (c.entries msgs).length < 2 ^ 31 → Boards.UntiedAll c msgs bs →
      ∃ s', processMsgs c toScore env i msgs s = some s' ∧
        Shows (n + (c.entries msgs).length) s'.db (Boards.afterAll c msgs bs) ∧
        s'.sent = s.sent ++ Boards.feed c toScore msgs bs
  | [], _, _, s, _, h, _, _ => ⟨s, rfl, h, (List.append_nil _).symm⟩
  | m :: msgs, i, n, s, bs, h, hn, hu => by
      have hsplit : m :: msgs = [m] ++ msgs := rfl
      rw [hsplit, c.entries_append, List.length_append, ← Nat.add_assoc] at hn
      rw [hsplit, Boards.untiedAll_append] at hu
      obtain ⟨s1, hone, h1, hsent1⟩ := processMQMsg_shows h c toScore (env i) m (by omega) hu.1
      obtain ⟨s', hrest, h', hsent'⟩ :=
        processMsgs_shows c toScore env msgs (i + 1) _ s1 _ h1 hn hu.2
      refine ⟨s', by simp [processMsgs, hone, hrest], ?_, ?_⟩
      · rw [hsplit, c.entries_append, List.length_append, ← Nat.add_assoc, Boards.afterAll_append]
        exact h'
      · rw [hsplit, Boards.feed_append, ← List.append_assoc, ← hsent1, hsent']

/-! ## Runs -/

/-- What the server has sent is what the boards `bs` send for the messages it has handled, if these
tie no members and the members set stay below `2^31`; `n` were set before. -/
def Leads (c : MsgCodecs α) (toScore : ToScore α) (n : ℕ) (bs : Boards α) (s : MsgLoop α) : Prop :=
  Boards.UntiedAll c s.handled bs → n + (c.entries s.handled).length < 2 ^ 31 →
    Shows (n + (c.entries s.handled).length) s.db (Boards.afterAll c s.handled bs) ∧
      s.sent = Boards.feed c toScore s.handled bs

theorem leads_init (c : MsgCodecs α) (toScore : ToScore α) {n : ℕ} {d : Db α} {bs : Boards α}
    (h : Shows n d bs) : Leads c toScore n bs (init d) :=
  fun _ _ => ⟨h, rfl⟩

/-- One event. -/
theorem Leads.step {c : MsgCodecs α} {toScore : ToScore α} {n : ℕ} {bs : Boards α}
    {s s' : MsgLoop α} (h : Leads c toScore n bs s) (hlive : s.db.Live) (ev : Event α)
    (hstep : MsgLoop.step c toScore ev s = some s') : Leads c toScore n bs s' := by
  cases ev with
  | arrive m =>
      obtain rfl := Option.some.inj hstep
      exact h
  | onProc env =>
      simp only [MsgLoop.step, processMQRecv, Option.map_eq_some_iff] at hstep
      obtain ⟨⟨ret, _⟩, hrun, rfl⟩ := hstep
      split at hrun
      · cases hrun
        exact h
      · simp only [Option.bind_eq_bind, Option.bind_eq_some_iff, Option.some.injEq,
          Prod.mk.injEq] at hrun
        obtain ⟨s1, hmsgs, _, rfl⟩ := hrun
        intro hu hn
        obtain ⟨s2, hmsgs', hhandles⟩ := processMsgs_handles c toScore env (s.mq.recvMsgs 10).1 0
          { s with mq := (s.mq.recvMsgs 10).2 } hlive
        obtain rfl := Option.some.inj (hmsgs.symm.trans hmsgs')
        have hhandled : s1.handled = s.handled ++ (s.mq.recvMsgs 10).1 := hhandles.handled
        rw [hhandled] at hu hn ⊢
        rw [Boards.untiedAll_append] at hu
        rw [c.entries_append, List.length_append, ← Nat.add_assoc] at hn ⊢
        rw [Boards.afterAll_append, Boards.feed_append]
        obtain ⟨hshows, hsent⟩ := h hu.1 (by omega)
        obtain ⟨s3, hmsgs3, h3, hsent3⟩ := processMsgs_shows c toScore env _ 0 _
          { s with mq := (s.mq.recvMsgs 10).2 } _ hshows hn hu.2
        obtain rfl := Option.some.inj (hmsgs.symm.trans hmsgs3)
        refine ⟨h3, ?_⟩
        rw [← hsent]
        exact hsent3

/-- A server that starts with the boards `bs` stays with them. -/
theorem run_leads {n : ℕ} {d : Db α} {bs : Boards α} (h : Shows n d bs) (c : MsgCodecs α)
    (toScore : ToScore α) (evs : List (Event α)) :
    ∃ s, Lib.run (MsgLoop.step c toScore) evs (init d) = some s ∧ Served c d evs s ∧
      Leads c toScore n bs s :=
  run_total_history (fun past s => Served c d past s ∧ Leads c toScore n bs s)
    (fun past ev s hs => by
      obtain ⟨s', hstep, hs', _⟩ := hs.1.step toScore ev
      exact ⟨s', hstep, hs', hs.2.step hs.1.live ev hstep⟩)
    evs [] (init d) ⟨served_init c h.live, leads_init c toScore h⟩

/-- What it has sent after a run. -/
theorem run_sent {n : ℕ} {d : Db α} {bs : Boards α} (h : Shows n d bs) (c : MsgCodecs α)
    (toScore : ToScore α) (evs : List (Event α))
    (hu : Boards.UntiedAll c ((arrived evs).filter fun m => decide (Readable m)) bs)
    (hfew : n + (c.entries ((arrived evs).filter fun m => decide (Readable m))).length < 2 ^ 31) :
    ∃ s, Lib.run (MsgLoop.step c toScore) evs (init d) = some s ∧
      s.handled <+: (arrived evs).filter (fun m => decide (Readable m)) ∧
      s.sent = Boards.feed c toScore s.handled bs := by
  obtain ⟨s, hrun, hserved, hleads⟩ := run_leads h c toScore evs
  have hsplit := hserved.inOrder
  rw [← hsplit, Boards.untiedAll_append] at hu
  rw [← hsplit, c.entries_append, List.length_append] at hfew
  exact ⟨s, hrun, ⟨_, hsplit⟩, (hleads hu.1 (by omega)).2⟩

/-- **The server is a leaderboard.** Take any run from an empty database, in which the messages
that arrive tie no members of a key and set fewer than `2^31`. Then the server has handled a first
part of them, in order, and has sent what the boards send for it. -/
theorem run_leaderboard (c : MsgCodecs α) (toScore : ToScore α) (evs : List (Event α))
    (hu : Boards.UntiedAll c ((arrived evs).filter fun m => decide (Readable m)) Boards.empty)
    (hfew : (c.entries ((arrived evs).filter fun m => decide (Readable m))).length < 2 ^ 31) :
    ∃ s, Lib.run (MsgLoop.step c toScore) evs (init Db.new) = some s ∧
      s.handled <+: (arrived evs).filter (fun m => decide (Readable m)) ∧
      s.sent = Boards.feed c toScore s.handled Boards.empty :=
  run_sent shows_new c toScore evs hu (by rwa [Nat.zero_add])

theorem run_leaderboard_two :
    Boards.UntiedAll setThenTop ((arrived setThenTopEvents).filter fun m => decide (Readable m))
        Boards.empty ∧
      (setThenTop.entries ((arrived setThenTopEvents).filter fun m =>
        decide (Readable m))).length < 2 ^ 31 ∧
      ∃ s, Lib.run (MsgLoop.step setThenTop intScore) setThenTopEvents (init Db.new) = some s ∧
        s.handled <+: (arrived setThenTopEvents).filter (fun m => decide (Readable m)) ∧
        s.sent = Boards.feed setThenTop intScore s.handled Boards.empty := by
  have hu : Boards.UntiedAll setThenTop
      ((arrived setThenTopEvents).filter fun m => decide (Readable m)) Boards.empty := by
    decide +kernel
  have hfew : (setThenTop.entries ((arrived setThenTopEvents).filter fun m =>
      decide (Readable m))).length < 2 ^ 31 := by decide
  exact ⟨hu, hfew, run_leaderboard setThenTop intScore setThenTopEvents hu hfew⟩

end MsgLoop

end LibC
