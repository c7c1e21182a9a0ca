/-
LibC.Proxy.MqMgrTheorems — every bucket belongs to one server.

Numbers are cut into `n` blocks of `per` each, the last of which has no end:
`blockOf` is the block of a number, for any `per`, zero included. The loop of
`GetIndex` counts its way to the block of a bucket (`indexLoop_eq`): the sum is
the end of the block of the index, and stays below the number of buckets. The
rest is about blocks (`getIndex_partition`).

No `sorry`, no `axiom`, no `native_decide`.
-/
import LibC.Proxy.MqMgr
import Mathlib.Order.Monotone.Defs

namespace LibC

open LibC.Lib

/-! ## Blocks -/

/-- The block of `b` among `n` blocks of `per` numbers; the last one takes what is left. -/
def blockOf (per n b : ℕ) : ℕ := if per = 0 then n - 1 else min (b / per) (n - 1)

theorem blockOf_lt {n : ℕ} (hn : 0 < n) (per b : ℕ) : blockOf per n b < n := by
  unfold blockOf
  split
  · omega
  · exact Nat.lt_of_le_of_lt (Nat.min_le_right _ _) (by omega)

theorem blockOf_mono (per n : ℕ) : Monotone (blockOf per n) := by
  intro a b hab
  unfold blockOf
  split
  · exact Nat.le_refl _
  · have hdiv := Nat.div_le_div_right (c := per) hab
    omega

/-- A block but the last. -/
theorem blockOf_eq_iff {per n i : ℕ} (hper : 0 < per) (hi : i < n - 1) (b : ℕ) :
    blockOf per n b = i ↔ i * per ≤ b ∧ b < (i + 1) * per := by
  have hdiv : b / per = i ↔ i * per ≤ b ∧ b < (i + 1) * per := by
    rw [← Nat.le_div_iff_mul_le hper, ← Nat.div_lt_iff_lt_mul hper]
    omega
  rw [blockOf, if_neg (by omega), ← hdiv]
  omega

/-- The last block. -/
theorem blockOf_last_iff {per n : ℕ} (hper : 0 < per) (b : ℕ) :
    blockOf per n b = n - 1 ↔ (n - 1) * per ≤ b := by
  rw [blockOf, if_neg (by omega), ← Nat.le_div_iff_mul_le hper]
  omega

/-! ## `GetIndex` -/

theorem toNat_ofInt {n : ℕ} (h : n < 2 ^ 32) : (UInt32.ofInt n).toNat = n := by
  have hmod : ((n : ℤ) % 2 ^ 32).toNat = n := by
    rw [Int.emod_eq_of_lt (Int.natCast_nonneg n) (by omega)]
    exact Int.toNat_natCast n
  rw [UInt32.ofInt, hmod]
  exact UInt32.toNat_ofNat_of_lt h

theorem checkedInt_natCast {n : ℕ} (h : n < 2 ^ 31) : checkedInt n = some (n : ℤ) := by
  rw [checkedInt, if_pos]
  omega

theorem castInt_natCast {n : ℕ} (h : n < 2 ^ 31) : castInt n = (n : ℤ) := by
  unfold castInt
  exact Int.bmod_eq_of_le (by omega) (by omega)

namespace MqMgr

/-- The conversions of the condition keep the values, since there are sockets. -/
theorem moreSockets_iff {n idx : ℕ} (hn : n < 2 ^ 31) (hidx : idx < n) :
    moreSockets n idx ↔ idx < n - 1 := by
  have hmod : ((n : ℤ) - 1) % 2 ^ 64 = (n : ℤ) - 1 := Int.emod_eq_of_lt (by omega) (by omega)
  rw [moreSockets, toNat_ofInt (show idx < 2 ^ 32 by omega), hmod]
  omega

/-- The loop, from the beginning of a block on: the sum is the end of the block. -/
theorem indexLoop_eq {b per n : ℕ} (hn : n < 2 ^ 31) (hsum : per * n < 2 ^ 31) :
    ∀ (fuel idx : ℕ), n ≤ idx + fuel → idx < n → per * idx ≤ b →
      indexLoop b per n fuel idx (per * (idx + 1) : ℕ) = some (blockOf per n b : ℤ)
  | 0, idx, hfuel, hidx, _ => absurd hidx (Nat.not_lt.mpr hfuel)
  | fuel + 1, idx, hfuel, hidx, hb => by
      unfold indexLoop
      by_cases hlast : idx < n - 1
      · rw [if_pos ((moreSockets_iff hn hidx).mpr hlast)]
        by_cases hlt : b < per * (idx + 1)
        · -- the bucket is in this block
          have hper : 0 < per := by
            refine Nat.pos_of_ne_zero fun hzero => ?_
            rw [hzero, Nat.zero_mul] at hlt
            exact Nat.not_lt_zero b hlt
          have hblock := (blockOf_eq_iff hper hlast b).mpr
            ⟨by rw [Nat.mul_comm]; exact hb, by rw [Nat.mul_comm]; exact hlt⟩
          rw [if_pos (Int.ofNat_lt.mpr hlt), hblock]
        · have hnext : per * (idx + 1) + per = per * (idx + 1 + 1) := (Nat.mul_succ _ _).symm
          have hle : per * (idx + 1 + 1) ≤ per * n := Nat.mul_le_mul_left per (by omega)
          have ih := indexLoop_eq hn hsum fuel (idx + 1) (by omega) (by omega)
            (Nat.not_lt.mp hlt)
          have h1 : checkedInt (((per * (idx + 1) : ℕ) : ℤ) + (per : ℤ)) =
              some ((per * (idx + 1 + 1) : ℕ) : ℤ) := by
            rw [← Int.natCast_add, hnext]
            exact checkedInt_natCast (by omega)
          have h2 : checkedInt ((idx : ℤ) + 1) = some ((idx + 1 : ℕ) : ℤ) :=
            checkedInt_natCast (show idx + 1 < 2 ^ 31 by omega)
          rw [if_neg fun h => hlt (Int.ofNat_lt.mp h)]
          simp only [h1, h2, Option.bind_eq_bind, Option.bind_some]
          exact ih
      · -- the last block
        obtain rfl : idx = n - 1 := by omega
        have hblock : blockOf per n b = n - 1 := by
          rcases Nat.eq_zero_or_pos per with hzero | hper
          · rw [blockOf, if_pos hzero]
          · exact (blockOf_last_iff hper b).mpr (by rw [Nat.mul_comm]; exact hb)
        rw [if_neg fun h => hlast ((moreSockets_iff hn hidx).mp h), hblock]

variable {mgr : MqMgr} {n B : ℕ}

/-- `GetIndex` answers the block of the bucket. -/
theorem getIndex_eq (hn : mgr.pushSks.length = n) (hpos : 1 ≤ n) (hB : 1 ≤ B)
    (hlt : B < 2 ^ 31) (key : Bytes) :
    mgr.getIndex B key = some (blockOf (B / n) n ((hash key).toNat % B) : ℤ) := by
  have hfits : n < 2 ^ 31 := hn ▸ mgr.fits
  have hbucket : (hash key % UInt32.ofInt B).toNat = (hash key).toNat % B := by
    rw [UInt32.toNat_mod, toNat_ofInt (Nat.lt_trans hlt (by decide))]
  have hval : (hash key).toNat % B < B := Nat.mod_lt _ hB
  have hper : ((B : ℤ).tdiv n) = ((B / n : ℕ) : ℤ) := rfl
  have hdiv : B / n ≤ B := Nat.div_le_self B n
  have hsum : B / n * n ≤ B := Nat.div_mul_le_self B n
  have hloop : indexLoop ((hash key).toNat % B : ℕ) (B / n : ℕ) n n 0 (B / n : ℕ) =
      some (blockOf (B / n) n ((hash key).toNat % B) : ℤ) := by
    have h := indexLoop_eq hfits (Nat.lt_of_le_of_lt hsum hlt) n 0 (Nat.le_add_left n 0) hpos
      (Nat.zero_le ((hash key).toNat % B))
    rwa [Nat.zero_add, Nat.mul_one] at h
  unfold getIndex
  rw [if_neg (by omega), hbucket, hn]
  simp only [checkedInt_natCast (Nat.lt_trans hval hlt), checkedInt_natCast hfits, hper,
    checkedInt_natCast (Nat.lt_of_le_of_lt hdiv hlt), Option.bind_eq_bind, Option.bind_some]
  rw [if_neg (by omega)]
  exact hloop

variable (mgr B) in
/-- **Sharding.** For any number of sockets and of buckets, a key goes to the server that owns its
bucket, and no conversion changes a value, nor does that of the length of a key that `int` can
measure. The owner grows with the bucket; when there are enough buckets, every server but the last
owns as many as the division gives, one behind the other, and the last one the rest. -/
theorem getIndex_partition (hn : mgr.pushSks.length = n) (hpos : 1 ≤ n) (hB : 1 ≤ B)
    (hlt : B < 2 ^ 31) :
    ∃ owner : ℕ → ℕ, Monotone owner ∧ (∀ b, owner b < n) ∧
      (∀ key, mgr.getIndex B key = some (owner ((hash key).toNat % B) : ℤ) ∧
        (∃ pushSk, mgr.pushSks[owner ((hash key).toNat % B)]? = some pushSk ∧
          mgr.sendTo B key = some (some pushSk)) ∧
        (key.length < 2 ^ 31 → castInt key.length = (key.length : ℤ))) ∧
      (n ≤ B → (∀ i < n - 1, ∀ b, owner b = i ↔ i * (B / n) ≤ b ∧ b < (i + 1) * (B / n)) ∧
        (∀ b, owner b = n - 1 ↔ (n - 1) * (B / n) ≤ b) ∧ B / n ≤ B - (n - 1) * (B / n)) := by
  refine ⟨blockOf (B / n) n, blockOf_mono _ _, blockOf_lt hpos _, fun key => ?_, fun hle => ?_⟩
  · have hindex := getIndex_eq hn hpos hB hlt key
    have hin : blockOf (B / n) n ((hash key).toNat % B) < mgr.pushSks.length := by
      rw [hn]
      exact blockOf_lt hpos _ _
    refine ⟨hindex, ⟨_, List.getElem?_eq_getElem hin, ?_⟩, castInt_natCast⟩
    unfold sendTo
    rw [if_neg (by omega), hindex]
    simp [List.getElem?_eq_getElem hin]
  · have hper : 0 < B / n := Nat.div_pos hle hpos
    have hsum : B / n * n ≤ B := Nat.div_mul_le_self B n
    refine ⟨fun i hi b => blockOf_eq_iff hper hi b, blockOf_last_iff hper, ?_⟩
    obtain ⟨k, rfl⟩ : ∃ k, n = k + 1 := ⟨n - 1, by omega⟩
    rw [Nat.mul_succ, Nat.mul_comm] at hsum
    rw [Nat.add_sub_cancel]
    omega

theorem getIndex_partition_three :
    ∃ owner : ℕ → ℕ, Monotone owner ∧ (∀ b, owner b < 3) ∧ (∀ b, owner b = 2 ↔ 1364 ≤ b) ∧
      ∀ key, getIndex (2048 : ℕ) key ⟨[7, 8, 9], by decide⟩ =
        some (owner ((hash key).toNat % 2048) : ℤ) := by
  obtain ⟨owner, hmono, hlt, hkey, hblocks⟩ :=
    getIndex_partition ⟨[7, 8, 9], by decide⟩ 2048 rfl (by decide) (by decide) (by decide)
  have hlast : ∀ b, owner b = 2 ↔ 1364 ≤ b := (hblocks (by decide)).2.1
  exact ⟨owner, hmono, hlt, hlast, fun key => (hkey key).1⟩

end MqMgr

end LibC
