import ORaidServer.Raid.Accept
import Mathlib.Data.List.TakeWhile

/-!
# The local engine on files of one length

On files that all have the declared length `s_riad` returns `RIGHT` with the exclusive or of the files
if and only if none of the bytes of the first file after its last whole word is `0xFF`
(`sRiad_correct_iff`): read into a `char`, this byte cannot be told from `EOF`.
-/

namespace ORaidServer

open ByteMem

/-- The byte loop takes all that is left if and only if this contains no `0xFF`. -/
theorem tailStop_eq_iff {c : List Byte} {p n : ℕ} (h : c.length = p + n) :
    tailStop c p = n ↔ ∀ b ∈ c.drop p, b ≠ 0xFF := by
  have hn : (c.drop p).length = n := by simp [h]
  have hchar : ∀ b : Byte, b.toInt ≠ -1 ↔ b ≠ 0xFF := by decide
  have hself : tailStop c p = n ↔ (c.drop p).takeWhile (fun b => b.toInt ≠ -1) = c.drop p := by
    rw [← hn]
    exact ⟨(List.takeWhile_prefix _).eq_of_length, fun ht => congrArg List.length ht⟩
  rw [hself, List.takeWhile_eq_self_iff]
  simp [hchar]

section OneLength

variable {N : ℕ} {c₀ : List Byte} {cs : List (List Byte)} (h : ∀ c ∈ c₀ :: cs, c.length = N)
include h

theorem accepted_iff_of_length : Accepted N c₀ cs ↔ ∀ b ∈ c₀.drop (4 * (N / 4)), b ≠ 0xFF := by
  have h₀ := h c₀ (by simp)
  have hmod := Nat.div_add_mod N 4
  rw [Accepted, tailStop_eq_iff (h₀.trans hmod.symm)]
  constructor
  · rintro ⟨-, ⟨hzero, -⟩ | htail⟩
    · rw [List.drop_eq_nil_of_le (by omega)]
      simp
    · exact htail
  · exact fun htail => ⟨fun c hc => by rw [h c hc]; omega, Or.inr htail⟩

theorem map_eofPad_of_length : (c₀ :: cs).map (eofPad N) = c₀ :: cs := by
  have hpad : ∀ c ∈ c₀ :: cs, eofPad N c = id c := fun c hc => eofPad_of_le (h c hc).ge
  rw [List.map_congr_left hpad, List.map_id]

/-- **Local exclusive or.** -/
theorem sRiad_correct_iff (mallocs : ℕ → Bool) :
    (∃ fuel r, sRiad fuel N mallocs (.ofContent c₀) (cs.map .ofContent) ⟨[], []⟩ = some r ∧
      r.ret = right ∧ r.out.data = xorBlocks (c₀ :: cs) N) ↔
      Allocates mallocs (cs.length + 1) ∧ ∀ b ∈ c₀.drop (4 * (N / 4)), b ≠ 0xFF := by
  have hright := sRiad_right_iff N mallocs c₀ cs
  rw [map_eofPad_of_length h, accepted_iff_of_length h] at hright
  constructor
  · rintro ⟨fuel, ⟨ret, o, live⟩, hrun, rfl, -⟩
    obtain ⟨hall, htail, -⟩ := (hright o).1 ⟨fuel, live, hrun⟩
    exact ⟨hall, htail⟩
  · rintro ⟨hall, htail⟩
    obtain ⟨fuel, live, hrun⟩ := (hright _).2 ⟨hall, htail, rfl⟩
    exact ⟨fuel, _, hrun, rfl, rfl⟩

end OneLength

theorem sRiad_correct_iff_five :
    ∃ fuel r, sRiad fuel 5 (fun _ => true) (.ofContent [1, 2, 3, 4, 5]) [.ofContent [1, 1, 1, 1, 255]]
      ⟨[], []⟩ = some r ∧ r.ret = right ∧ r.out.data = [0, 3, 2, 5, 250] :=
  have hlen : ∀ c ∈ [1, 2, 3, 4, 5] :: [[1, 1, 1, 1, (255 : Byte)]], c.length = 5 := by decide
  (sRiad_correct_iff hlen fun _ => true).2 ⟨fun _ _ => rfl, by decide⟩

/-- A last byte `0xFF` of the first file ends the byte loop before the file does. -/
theorem not_sRiad_correct : ¬ ∀ N c₀ cs, (∀ c ∈ c₀ :: cs, c.length = N) →
    ∃ fuel r, sRiad fuel N (fun _ => true) (.ofContent c₀) (cs.map .ofContent) ⟨[], []⟩ = some r ∧
      r.ret = right ∧ r.out.data = xorBlocks (c₀ :: cs) N := by
  intro hall
  obtain ⟨fuel, r, hrun, hret, -⟩ := hall 5 [1, 2, 3, 4, 0xFF] [[0, 0, 0, 0, 0]] (by decide)
  -- the loop returns `ERROR_XOR_FILE`, and it has only one result
  have herr : Loop.Returns (iter 5)
      (.start (.ofContent [1, 2, 3, 4, 0xFF]) [.ofContent [0, 0, 0, 0, 0]] ⟨[], []⟩)
      (errorXorFile, ⟨[1, 2, 3, 4, 1, 2, 3, 4], []⟩) := ⟨2, by decide +kernel⟩
  obtain ⟨q, hq, rfl⟩ := Option.map_eq_some_iff.1 hrun
  have heq : (errorXorFile, _) = q := herr.unique ⟨fuel, hq⟩
  rw [← heq] at hret
  exact absurd hret (by decide)

end ORaidServer
