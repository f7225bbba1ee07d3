import ORaidServer.Lib.Parity
import ORaidServer.Raid.Agree

/-!
# Recovery of a lost file

What the server is for: the output of one job is the parity of its inputs, and a job on the parity and on all
the inputs but one gives this one back.  All calls of the two engines succeed, and the remote one runs in the
schedule of `Prompt.step`.

* `xorBlocks_recover` and `xorBlocks_replace`, on blocks;
* `recover_iff`: after a job of either engine, when another job of either engine returns `RIGHT` and the file
  that was lost;
* `replace_iff`: the same for the parity after one of the files was replaced.
-/

namespace ORaidServer

open ByteMem Parity List

/-! ### Blocks -/

/-- A column is reduced to its parity. -/
theorem columnXor_eq_parity (bs : List (List Byte)) (p : ℕ) :
    columnXor bs p = parity (fun x y : Byte => x ^^^ y) 0 (bs.map (·.getD p 0)) := by
  rw [columnXor, parity, foldl_map]

theorem columnXor_perm {bs bs' : List (List Byte)} (h : bs ~ bs') (p : ℕ) :
    columnXor bs p = columnXor bs' p := by
  rw [columnXor_eq_parity, columnXor_eq_parity, parity_perm (h.map _)]

theorem xorBlocks_perm {bs bs' : List (List Byte)} (h : bs ~ bs') (n : ℕ) :
    xorBlocks bs n = xorBlocks bs' n :=
  map_congr_left fun p _ => columnXor_perm h p

section Blocks

variable {bs rest : List (List Byte)} {lost : List Byte} (h : lost :: rest ~ bs)
include h

/-- The parity and all the blocks but one give this one back. -/
theorem xorBlocks_recover : xorBlocks (xorBlocks bs lost.length :: rest) lost.length = lost := by
  refine ext_getD (length_xorBlocks _ _) fun p hp => ?_
  have hcol : lost.getD p 0 :: rest.map (·.getD p 0) ~ bs.map (·.getD p 0) :=
    h.map fun b : List Byte => b.getD p 0
  rw [length_xorBlocks] at hp
  rw [getD_xorBlocks _ hp, columnXor_cons, getD_xorBlocks _ hp, columnXor_eq_parity, columnXor_eq_parity]
  exact recover (fun _ => BitVec.xor_self) hcol

/-- The parity, a block and what replaces it give the parity after the replacement. -/
theorem xorBlocks_replace (new : List Byte) (n : ℕ) :
    xorBlocks [xorBlocks bs n, lost, new] n = xorBlocks (new :: rest) n := by
  refine map_congr_left fun p hp => ?_
  have hcol : lost.getD p 0 :: rest.map (·.getD p 0) ~ bs.map (·.getD p 0) :=
    h.map fun b : List Byte => b.getD p 0
  rw [columnXor_eq_parity, columnXor_eq_parity, map_cons, map_cons, map_cons, map_nil,
    getD_xorBlocks _ (mem_range.1 hp), columnXor_eq_parity]
  exact parity_replace (fun _ => BitVec.xor_self) hcol

end Blocks

/-! ### The engines -/

section Engines

variable {n N k : ℕ} {f g : ℕ → List Byte} {pieces pieces' : ℕ → List (List Byte)} {P : List Byte}

/-- What the remote engine has written when it returns `RIGHT`. -/
theorem remoteReturns_iff (hn : 0 < n) (hs : Stream.Split n N f pieces) (data : List Byte) :
    RemoteReturns n N pieces right data ↔ 0 < N ∧ data = xorBlocks ((List.range n).map f) N := by
  constructor
  · intro h
    obtain ⟨out, hret, -⟩ := id h
    have hN : 0 < N := by
      by_contra h0
      obtain rfl : N = 0 := by omega
      exact not_prompt_returns hn hs _ hret
    exact ⟨hN, (h.unique ⟨_, prompt_returns hn hN hs, rfl⟩).2⟩
  · rintro ⟨hN, rfl⟩
    exact ⟨_, prompt_returns hn hN hs, rfl⟩

/-- One of the files apart from the others. -/
theorem perm_map_erase (hk : k < n) : f k :: ((List.range n).erase k).map f ~ (List.range n).map f :=
  ((perm_cons_erase (mem_range.2 hk)).map f).symm

/-- Either engine writes the exclusive or when it returns `RIGHT`. -/
theorem eq_of_right (hn : 0 < n) (hs : Stream.Split n N f pieces)
    (h : LocalReturns n N f right P ∨ RemoteReturns n N pieces right P) :
    P = xorBlocks ((List.range n).map f) N := by
  rcases h with h | h
  · exact ((localReturns_iff hn hs.length _).1 h).2
  · exact ((remoteReturns_iff hn hs _).1 h).2

/-- **Recovery.**  After a job that returned `RIGHT`, on either engine, a job on its output and on all its
inputs but one, in any order, has written the missing one when it returns `RIGHT`. -/
theorem recover_iff (hk : k < n) (hs : Stream.Split n N f pieces)
    (hP : LocalReturns n N f right P ∨ RemoteReturns n N pieces right P)
    (hg : (List.range n).map g ~ P :: ((List.range n).erase k).map f) (hs' : Stream.Split n N g pieces')
    (data : List Byte) :
    (LocalReturns n N g right data ↔ (∀ b ∈ (g 0).drop (4 * (N / 4)), b ≠ 0xFF) ∧ data = f k) ∧
      (RemoteReturns n N pieces' right data ↔ 0 < N ∧ data = f k) := by
  have hn : 0 < n := by omega
  have hlost : xorBlocks ((List.range n).map g) N = f k := by
    have hrecover := xorBlocks_recover (perm_map_erase (f := f) hk)
    rw [hs.length k hk] at hrecover
    rw [xorBlocks_perm hg, eq_of_right hn hs hP, hrecover]
  rw [localReturns_iff hn hs'.length, remoteReturns_iff hn hs', hlost]
  exact ⟨Iff.rfl, Iff.rfl⟩

theorem recover_iff_two : LocalReturns 2 1 (fun i => [BitVec.ofNat 8 (3 - i)]) right [1] ∧
    RemoteReturns 2 1 (fun i => [[BitVec.ofNat 8 (3 - i)]]) right [1] := by
  have hP : LocalReturns 2 1 (fun i => [BitVec.ofNat 8 (i + 1)]) right [3] :=
    ⟨1, ⟨right, ⟨[3], []⟩, []⟩, by decide +kernel, rfl, rfl⟩
  have hs : Stream.Split 2 1 (fun i => [BitVec.ofNat 8 (i + 1)]) fun i => [[BitVec.ofNat 8 (i + 1)]] :=
    ⟨fun _ _ => rfl, fun _ _ => rfl, fun _ _ => by simp [maxline]⟩
  have hs' : Stream.Split 2 1 (fun i => [BitVec.ofNat 8 (3 - i)]) fun i => [[BitVec.ofNat 8 (3 - i)]] :=
    ⟨fun _ _ => rfl, fun _ _ => rfl, fun _ _ => by simp [maxline]⟩
  obtain ⟨hlocal, hremote⟩ := recover_iff (k := 0) (by decide) hs (Or.inl hP) (Perm.refl _) hs' [1]
  exact ⟨hlocal.2 (by decide), hremote.2 (by decide)⟩

/-- **Replacement.**  A job on the parity, one of the files and what replaces it, in this order or another,
has written the parity of the files after the replacement when it returns `RIGHT`. -/
theorem replace_iff (hk : k < n) (hs : Stream.Split n N f pieces)
    (hP : LocalReturns n N f right P ∨ RemoteReturns n N pieces right P) {new : List Byte}
    (hg : (List.range 3).map g ~ [P, f k, new]) (hs' : Stream.Split 3 N g pieces') (data : List Byte) :
    (LocalReturns 3 N g right data ↔ (∀ b ∈ (g 0).drop (4 * (N / 4)), b ≠ 0xFF) ∧
        data = xorBlocks ((List.range n).map (Function.update f k new)) N) ∧
      (RemoteReturns 3 N pieces' right data ↔
        0 < N ∧ data = xorBlocks ((List.range n).map (Function.update f k new)) N) := by
  have hn : 0 < n := by omega
  -- the files after the replacement, with the one replaced in front
  have hnew : new :: ((List.range n).erase k).map f ~ (List.range n).map (Function.update f k new) := by
    have hperm := perm_map_erase (f := Function.update f k new) hk
    rw [Function.update_self] at hperm
    have hrest : ((List.range n).erase k).map (Function.update f k new) = ((List.range n).erase k).map f :=
      map_congr_left fun i hi =>
        Function.update_of_ne (nodup_range.mem_erase_iff.1 hi).1 _ _
    rwa [hrest] at hperm
  have hxor : xorBlocks ((List.range 3).map g) N =
      xorBlocks ((List.range n).map (Function.update f k new)) N := by
    rw [xorBlocks_perm hg, eq_of_right hn hs hP, xorBlocks_replace (perm_map_erase hk), xorBlocks_perm hnew]
  rw [localReturns_iff (by decide) hs'.length, remoteReturns_iff (by decide) hs', hxor]
  exact ⟨Iff.rfl, Iff.rfl⟩

theorem replace_iff_two :
    LocalReturns 3 1 (fun i => [[3], [1], [(7 : Byte)]].getD i []) right [5] ∧
      RemoteReturns 3 1 (fun i => [[[3], [1], [(7 : Byte)]].getD i []]) right [5] := by
  have hP : LocalReturns 2 1 (fun i => [BitVec.ofNat 8 (i + 1)]) right [3] :=
    ⟨1, ⟨right, ⟨[3], []⟩, []⟩, by decide +kernel, rfl, rfl⟩
  have hs : Stream.Split 2 1 (fun i => [BitVec.ofNat 8 (i + 1)]) fun i => [[BitVec.ofNat 8 (i + 1)]] :=
    ⟨fun _ _ => rfl, fun _ _ => rfl, fun _ _ => by simp [maxline]⟩
  have hs' : Stream.Split 3 1 (fun i => [[3], [1], [(7 : Byte)]].getD i [])
      fun i => [[[3], [1], [(7 : Byte)]].getD i []] :=
    ⟨fun _ _ => by simp, by decide, by decide⟩
  have hg : (List.range 3).map (fun i => [[3], [1], [(7 : Byte)]].getD i []) ~
      [[3], [BitVec.ofNat 8 (0 + 1)], [7]] := .refl _
  obtain ⟨hlocal, hremote⟩ := replace_iff (k := 0) (by decide) hs (Or.inl hP) hg hs' [5]
  exact ⟨hlocal.2 (by decide), hremote.2 (by decide)⟩

end Engines

end ORaidServer
