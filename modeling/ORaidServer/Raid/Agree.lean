import ORaidServer.Raid.Correct
import ORaidServer.Group.PromptInv

/-!
# The local and the remote engine on the same files

`s_riad` on the files and the consumer on the streamed files, under the prompt schedule and with all I/O
succeeding in full.

* `LocalReturns`, `RemoteReturns` and `Agree`;
* `agree_iff`: they agree if and only if the files are not empty and the bytes of the first file after its
  last whole word are not `0xFF`.
-/

namespace ORaidServer

open ByteMem

/-- `s_riad` on the files `f 0, …, f (n - 1)` of length `N` returns `ret` and has written `data`. -/
def LocalReturns (n N : ℕ) (f : ℕ → List Byte) (ret : ℤ) (data : List Byte) : Prop :=
  ∃ fuel r, sRiad fuel N (fun _ => true) (.ofContent (f 0))
    (((List.range' 1 (n - 1)).map f).map .ofContent) ⟨[], []⟩ = some r ∧ r.ret = ret ∧ r.out.data = data

/-- `judge_xor_condition` on the streamed files returns `ret` and has written `data`. -/
def RemoteReturns (n N : ℕ) (pieces : ℕ → List (List Byte)) (ret : ℤ) (data : List Byte) : Prop :=
  ∃ out, Loop.Returns Prompt.step (.init n N pieces) (ret, out) ∧ out.data = data

/-- Both engines return, both or neither with `RIGHT`, and in the first case they have written the same. -/
structure Agree (n N : ℕ) (f : ℕ → List Byte) (pieces : ℕ → List (List Byte)) : Prop where
  localReturns : ∃ ret data, LocalReturns n N f ret data
  remoteReturns : ∃ ret data, RemoteReturns n N pieces ret data
  right_iff : ∀ ret data ret' data', LocalReturns n N f ret data →
    RemoteReturns n N pieces ret' data' → (ret = right ↔ ret' = right)
  data_eq : ∀ ret data ret' data', LocalReturns n N f ret data →
    RemoteReturns n N pieces ret' data' → ret = right → data = data'

section Agreement

variable {n N : ℕ} {f : ℕ → List Byte} {pieces : ℕ → List (List Byte)}

theorem LocalReturns.unique {ret ret' : ℤ} {data data' : List Byte} (h : LocalReturns n N f ret data)
    (h' : LocalReturns n N f ret' data') : ret = ret' ∧ data = data' := by
  obtain ⟨fuel, r, hr, rfl, rfl⟩ := h
  obtain ⟨fuel', r', hr', rfl, rfl⟩ := h'
  rw [sRiad_unique hr hr']
  exact ⟨rfl, rfl⟩

theorem RemoteReturns.unique {ret ret' : ℤ} {data data' : List Byte}
    (h : RemoteReturns n N pieces ret data) (h' : RemoteReturns n N pieces ret' data') :
    ret = ret' ∧ data = data' := by
  obtain ⟨out, hr, rfl⟩ := h
  obtain ⟨out', hr', rfl⟩ := h'
  obtain ⟨rfl, rfl⟩ := Prod.mk.inj (hr.unique hr')
  exact ⟨rfl, rfl⟩

/-- When the local engine returns `RIGHT`, and what it has then written. -/
theorem localReturns_iff (hn : 0 < n) (hlen : ∀ i < n, (f i).length = N) (data : List Byte) :
    LocalReturns n N f right data ↔
      (∀ b ∈ (f 0).drop (4 * (N / 4)), b ≠ 0xFF) ∧ data = xorBlocks ((List.range n).map f) N := by
  have hmap := map_range_eq_cons f hn
  have hlen' : ∀ c ∈ f 0 :: (List.range' 1 (n - 1)).map f, c.length = N := by
    intro c hc
    rw [← hmap] at hc
    obtain ⟨i, hi, rfl⟩ := List.mem_map.1 hc
    exact hlen i (List.mem_range.1 hi)
  have hright := sRiad_right_iff N (fun _ => true) (f 0) ((List.range' 1 (n - 1)).map f)
  rw [map_eofPad_of_length hlen', accepted_iff_of_length hlen', ← hmap] at hright
  constructor
  · rintro ⟨fuel, ⟨ret, o, live⟩, hrun, rfl, rfl⟩
    obtain ⟨-, htail, rfl⟩ := (hright o).1 ⟨fuel, live, hrun⟩
    exact ⟨htail, rfl⟩
  · rintro ⟨htail, rfl⟩
    obtain ⟨fuel, live, hrun⟩ := (hright _).2 ⟨fun _ _ => rfl, htail, rfl⟩
    exact ⟨fuel, _, hrun, rfl, rfl⟩

/-- When the local engine computes the exclusive or. -/
theorem localReturns_right_iff (hn : 0 < n) (hs : Stream.Split n N f pieces) :
    LocalReturns n N f right (xorBlocks ((List.range n).map f) N) ↔
      ∀ b ∈ (f 0).drop (4 * (N / 4)), b ≠ 0xFF :=
  (localReturns_iff hn hs.length _).trans (and_iff_left rfl)

/-- **The engines agree** if and only if the files are not empty and `s_riad` does not take a byte of the first
file for its end. -/
theorem agree_iff (hn : 2 ≤ n) (hs : Stream.Split n N f pieces) :
    Agree n N f pieces ↔ 1 ≤ N ∧ ∀ b ∈ (f 0).drop (4 * (N / 4)), b ≠ 0xFF := by
  have hn0 : 0 < n := by omega
  have hlocal := localReturns_right_iff hn0 hs
  have hremote : 0 < N → RemoteReturns n N pieces right (xorBlocks ((List.range n).map f) N) :=
    fun hN => ⟨_, prompt_returns hn0 hN hs, rfl⟩
  constructor
  · intro h
    have hN : 0 < N := by
      by_contra h0
      obtain rfl : N = 0 := by omega
      obtain ⟨ret, data, out, hret, -⟩ := h.remoteReturns
      exact not_prompt_returns hn0 hs _ hret
    obtain ⟨ret, data, hret⟩ := h.localReturns
    have hright : ret = right := (h.right_iff _ _ _ _ hret (hremote hN)).2 rfl
    have hdata := h.data_eq _ _ _ _ hret (hremote hN) hright
    rw [hright, hdata] at hret
    exact ⟨hN, hlocal.1 hret⟩
  · rintro ⟨hN, htail⟩
    have hl := hlocal.2 htail
    have hr := hremote hN
    refine ⟨⟨_, _, hl⟩, ⟨_, _, hr⟩, fun ret data ret' data' h h' => ?_, fun ret data ret' data' h h' _ => ?_⟩
    · rw [(h.unique hl).1, (h'.unique hr).1]
    · rw [(h.unique hl).2, (h'.unique hr).2]

end Agreement

theorem agree_iff_one : Agree 2 1 (fun _ => [1]) (fun _ => [[1]]) ↔
    1 ≤ 1 ∧ ∀ b ∈ [(1 : Byte)].drop (4 * (1 / 4)), b ≠ 0xFF :=
  agree_iff le_rfl ⟨fun _ _ => rfl, fun _ _ => rfl, fun _ _ => by decide⟩

/-- On empty files `s_riad` returns `RIGHT`, and the consumer never returns. -/
theorem not_agree : ¬ ∀ n N f pieces, 2 ≤ n → n ≤ 50 → Stream.Split n N f pieces → Agree n N f pieces := by
  intro hall
  have hs : Stream.Split 2 0 (fun _ => []) fun _ => [] :=
    ⟨fun _ _ => rfl, fun _ _ => rfl, fun _ _ p hp => by cases hp⟩
  obtain ⟨ret, data, out, hret, -⟩ := (hall 2 0 _ _ le_rfl (by omega) hs).remoteReturns
  exact not_prompt_returns Nat.two_pos hs _ hret

end ORaidServer
