import ORaidServer.Server.Leaks

/-!
# What the second close can hit

Between its two calls of `close` a thread has given its number back, and the next `accept` may hand it out again.

* `ByMain`, the steps of the thread that accepts clients;
* `exists_accepted`: as it goes on accepting, every free number is handed out;
* `stolen_iff`: in which states the second `close` can take a client its connection.
-/

namespace ORaidServer

open Guarded Descriptors

namespace Process

variable {s t : Process} {L : ℕ} {b d : ℕ}

/-- A step of the thread that accepts clients. -/
def ByMain (_ : Process) : ProcessAct → Prop
  | .accept _ | .spawn _ => True
  | _ => False

/-- Party `k` has opened `d` and counts on it. -/
def Owns (s : Process) (k : Holder) (d : ℕ) : Prop := s.holds k d ∧ s.table.entry d = some k

/-- What the accepting thread does: nothing to the threads of the files, nothing to what is open, and it opens only
what is free. -/
structure Grows (s t : Process) : Prop where
  sock : t.sock = s.sock
  limit : t.table.limit = s.table.limit
  keeps : ∀ d k, s.table.entry d = some k → t.table.entry d = some k
  opens : ∀ d k, t.table.entry d = some k → s.table.entry d = some k ∨ s.table.entry d = none ∧ d < s.table.limit

theorem Grows.refl (s : Process) : Grows s s := ⟨rfl, rfl, fun _ _ h => h, fun _ _ h => Or.inl h⟩

theorem Grows.trans {u : Process} (h : Grows s t) (h' : Grows t u) : Grows s u := by
  refine ⟨h'.sock.trans h.sock, h'.limit.trans h.limit, fun d k hd => h'.keeps d k (h.keeps d k hd), ?_⟩
  intro d k hd
  rcases h'.opens d k hd with hd' | ⟨hfree, hlt⟩
  · exact h.opens d k hd'
  · refine Or.inr ⟨?_, h.limit ▸ hlt⟩
    by_contra hopen
    obtain ⟨k', hk'⟩ := Option.ne_none_iff_exists'.1 hopen
    rw [h.keeps d k' hk'] at hfree
    cases hfree

theorem grows_put {t : Process} {e : ℕ} {k : Holder} (he : e < s.table.limit) (hfree : s.table.entry e = none)
    (hsock : t.sock = s.sock) (ht : t.table = s.table.put e k) : Grows s t := by
  refine ⟨hsock, by rw [ht]; rfl, fun d k' hd => ?_, fun d k' hd => ?_⟩
  · rw [ht, Table.entry_put_of_ne, hd]
    rintro rfl
    rw [hfree] at hd
    cases hd
  · rcases eq_or_ne d e with rfl | hne
    · exact Or.inr ⟨hfree, he⟩
    · rw [ht, Table.entry_put_of_ne hne] at hd
      exact Or.inl hd

/-- `accept`, when the thread of the client before is under way. -/
theorem accept_eq (hspawn : s.spawning = false) {e : ℕ}
    (hopen : s.table.acquire (.client s.accepted) = some (s.table.put e (.client s.accepted), e)) :
    s.step (.accept true) =
      { s with
        table := s.table.put e (.client s.accepted)
        client := Function.update s.client s.accepted (.accepted e)
        accepted := s.accepted + 1
        spawning := true } := by
  rw [step, if_neg (by rw [hspawn]; exact Bool.false_ne_true), if_pos rfl, hopen]

theorem grows_step {x : ProcessAct} (hx : s.ByMain x) : Grows s (s.step x) := by
  cases x with
  | accept ok =>
    by_cases hspawn : s.spawning = true
    · rw [step, if_pos hspawn]
      exact .refl s
    · cases ok with
      | false =>
        rw [step, if_neg hspawn]
        exact .refl s
      | true =>
        cases hopen : s.table.acquire (.client s.accepted) with
        | none =>
          rw [step, if_neg hspawn, if_pos rfl, hopen]
          exact .refl s
        | some r =>
          have hopen' : s.table.acquire (.client s.accepted) = some (r.1, r.2) := hopen
          obtain ⟨hlt, hfree, -, ht⟩ := Table.acquire_eq hopen'
          rw [ht] at hopen'
          rw [accept_eq (by simpa using hspawn) hopen']
          exact grows_put hlt hfree rfl rfl
  | spawn ok =>
    rw [step]
    split
    · exact ⟨rfl, rfl, fun _ _ h => h, fun _ _ h => Or.inl h⟩
    · exact .refl s
  | openRest | closeRest d | sock i x | client j x => exact hx.elim

theorem grows_of_reach (h : Reach step ByMain s t) : Grows s t :=
  h.invariant (I := Grows s) (.refl s) fun _ _ hu hx => hu.trans (grows_step hx)

/-- The accepting thread comes back to its `accept`. -/
theorem exists_ready (h : s.Numbered) : ∃ t, Reach step ByMain s t ∧ t.spawning = false ∧ t.table = s.table := by
  cases hspawn : s.spawning with
  | false => exact ⟨s, .refl, hspawn, rfl⟩
  | true =>
    obtain ⟨n, d, hn, hpc⟩ := h.spawning hspawn
    have hclient : s.client (s.accepted - 1) = .accepted d := by rw [hn]; exact hpc
    refine ⟨s.step (.spawn true), .single trivial, ?_, ?_⟩ <;> simp only [step, hspawn, hclient]

/-- As it goes on accepting, every free number comes to be the one of a client. -/
theorem exists_accepted (h : s.Numbered) (hb : b < s.table.limit) (hfree : s.table.entry b = none) :
    ∃ t j, Reach step ByMain s t ∧ t.Owns (.client j) b := by
  -- by induction on the free numbers below
  induction hm : s.table.freeBelow b using Nat.strong_induction_on generalizing s with
  | _ m ih =>
    obtain ⟨t, hst, hspawn, htable⟩ := exists_ready h
    have ht : t.Numbered := hst.invariant (I := Numbered) h fun _ _ hu _ => numbered_step hu _
    rw [← htable] at hb hfree hm
    obtain ⟨e, hle, hopen⟩ := Table.exists_acquire hb hfree (.client t.accepted)
    have hstep := accept_eq hspawn hopen
    have hreach : Reach step ByMain s (t.step (.accept true)) := hst.tail trivial
    rcases hle.lt_or_eq with hlt | rfl
    · obtain ⟨-, hfree', -, -⟩ := Table.acquire_eq hopen
      have hcount := Table.freeBelow_put hlt hfree' (.client t.accepted)
      obtain ⟨u, j, hu, howns⟩ := ih ((t.table.put e (.client t.accepted)).freeBelow b) (by omega)
        (numbered_step ht (.accept true)) (by rw [hstep]; exact hb)
        (by rw [hstep]; exact (Table.entry_put_of_ne hlt.ne').trans hfree) (by rw [hstep])
      exact ⟨u, j, hreach.trans hu, howns⟩
    · refine ⟨_, t.accepted, hreach, ?_, ?_⟩ <;> rw [hstep]
      · show (Function.update t.client t.accepted (.accepted e) t.accepted).fd = some e
        rw [Function.update_self]
        rfl
      · exact Table.entry_put_self

end Process

/-- **The second close.**  While a thread is before its second `close`, clients that connect can be given the number
it is about to close, and one of them then loses its connection, if and only if the number is free and within the
limit, or a client has it already. -/
theorem stolen_iff {L : ℕ} {rest : Finset ℕ} (hrest : ∀ d ∈ rest, d < L) {s : Process}
    (h : Reach Process.step Free (.init L rest) s) {i a b : ℕ} (hpc : s.sock i = .closeAgain a b) :
    (∃ t j, Reach Process.step Process.ByMain s t ∧ t.Owns (.client j) b ∧
      ¬ (t.step (.sock i .proceed)).Owns (.client j) b) ↔
      (s.table.entry b = none ∧ b < s.table.limit) ∨ ∃ j, s.table.entry b = some (.client j) := by
  have hwf : s.Wf L := h.invariant (I := Process.Wf L) (Process.wf_init hrest) fun _ x hu _ => hu.step x
  have hlost : ∀ {t : Process} {j : ℕ}, Reach Process.step Process.ByMain s t →
      ¬ (t.step (.sock i .proceed)).Owns (.client j) b := by
    rintro t j hst ⟨-, hentry⟩
    have hpc' : t.sock i = .closeAgain a b := by rw [(Process.grows_of_reach hst).sock, hpc]
    have hclose : (t.step (.sock i .proceed)).table = t.table.close b := by
      show ((t.sock i).step i t.table .proceed).1 = _
      rw [hpc']
      rfl
    rw [hclose, Table.entry_close_self] at hentry
    cases hentry
  constructor
  · rintro ⟨t, j, hst, ⟨-, hentry⟩, -⟩
    exact ((Process.grows_of_reach hst).opens b _ hentry).symm.imp_right fun hentry' => ⟨j, hentry'⟩
  · rintro (⟨hfree, hlt⟩ | ⟨j, hj⟩)
    · obtain ⟨t, j, hst, howns⟩ := Process.exists_accepted hwf.numbered hlt hfree
      exact ⟨t, j, hst, howns, hlost hst⟩
    · exact ⟨s, j, .refl, ⟨hwf.backed _ _ hj, hj⟩, hlost .refl⟩

theorem stolen_iff_connected : ∃ t j, Reach Process.step Process.ByMain
    (run Process.step (.init 1024 {0, 1, 2}) (connected 0 ++ [.sock 0 .over, .sock 0 .proceed])) t ∧
      t.Owns (.client j) 4 ∧ ¬ (t.step (.sock 0 .proceed)).Owns (.client j) 4 :=
  (stolen_iff standard_lt (reach_run _ _) (a := 3) (by decide +kernel)).2
    (Or.inl (by decide +kernel))

end ORaidServer
