import ORaidServer.Server.Process

/-!
# Who has what open

`close` is called twice on the socket of a file that is through: in `socket_read_file_data`, which removes the
event, and behind `event_base_dispatch`.  It is called more often where the record of the file holds the event of
another request's thread: the thread then stays in its event loop.

* `Books`, what a step can do to the descriptors and to the accounts of the parties;
* `Process.Wf`, the invariant of every run: whatever is open is held by the party that opened it;
* `accounts_iff`: nobody loses a descriptor if and only if no further `close` finds its number in use again.
-/

namespace ORaidServer

open Guarded Descriptors

namespace Process

variable {s : Process}

theorem holds_sock {i : ℕ} {t : Table Holder} {pc : SockPc} {k : Holder} {d : ℕ} :
    ({ s with table := t, sock := Function.update s.sock i pc } : Process).holds k d ↔
      if k = .first i then pc.first = some d else if k = .second i then pc.second = some d else s.holds k d := by
  cases k with
  | first j => rcases eq_or_ne j i with rfl | hj <;> simp_all [holds]
  | second j => rcases eq_or_ne j i with rfl | hj <;> simp_all [holds]
  | _ => simp [holds]

theorem holds_client {j : ℕ} {t : Table Holder} {pc : AcceptPc} {n : ℕ} {b : Bool} {k : Holder} {d : ℕ} :
    ({ s with
        table := t, client := Function.update s.client j pc, accepted := n, spawning := b } : Process).holds k d ↔
      if k = .client j then pc.fd = some d else s.holds k d := by
  cases k with
  | client j' => rcases eq_or_ne j' j with rfl | hj <;> simp_all [holds]
  | _ => simp [holds]

/-- The clients are numbered in the order of their `accept`, and the last one may wait for its thread. -/
structure Numbered (s : Process) : Prop where
  unborn : ∀ j, s.accepted ≤ j → s.client j = .unborn
  spawning : s.spawning = true → ∃ n d, s.accepted = n + 1 ∧ s.client n = .accepted d

/-- What a step can do to the descriptors and to the accounts. -/
inductive Books (s : Process) (x : ProcessAct) (s' : Process) : Prop
  | keep : s'.table.entry = s.table.entry → s'.table.limit = s.table.limit ∨ s'.table.limit = maxConnectSocketNum →
      (∀ k d, s'.holds k d ↔ s.holds k d) → Books s x s'
  | enter (k : Holder) (d : ℕ) : d < s.table.limit → s.table.entry d = none → s'.table = s.table.put d k →
      Enters s.holds s'.holds k d → Books s x s'
  | strike (k : Holder) (d : ℕ) : s.holds k d → s'.table = s.table.close d →
      Strikes s.holds s'.holds k d → Books s x s'
  | stray (i b : ℕ) (y : SockAct) : x = .sock i y → (s.sock i).closing y = some b → s'.table = s.table.close b →
      (∀ k d, s'.holds k d ↔ s.holds k d) → Books s x s'

theorem books_sock (s : Process) (i : ℕ) (x : SockAct) : Books s (.sock i x) (s.step (.sock i x)) := by
  have hm := (s.sock i).step_move i s.table x
  have hs : s.step (.sock i x) =
      { s with
        table := ((s.sock i).step i s.table x).1
        sock := Function.update s.sock i ((s.sock i).step i s.table x).2 } := rfl
  rw [hs]
  generalize ((s.sock i).step i s.table x).1 = t at hm
  generalize ((s.sock i).step i s.table x).2 = pc at hm
  cases hm with
  | keep _ hfirst hsecond =>
    refine .keep rfl (Or.inl rfl) fun k d => ?_
    rw [holds_sock]
    split_ifs with h1 h2
    · rw [h1, hfirst]
      rfl
    · rw [h2, hsecond]
      rfl
    · exact Iff.rfl
  | limit a hpc =>
    refine .keep rfl (Or.inr rfl) fun k d => ?_
    rw [holds_sock]
    split_ifs with h1 h2
    · rw [h1, holds, hpc]
      rfl
    · rw [h2, holds, hpc]
      rfl
    · exact Iff.rfl
  | first a t' hpc hopen =>
    obtain ⟨hlt, hfree, -, rfl⟩ := Table.acquire_eq hopen
    refine .enter (.first i) a hlt hfree rfl fun k d => ?_
    rw [holds_sock]
    split_ifs with h1 h2
    · subst h1
      simp [holds, hpc, SockPc.first, eq_comm]
    · subst h2
      simp [holds, hpc, SockPc.second]
    · simp [h1]
  | second a b t' hpc hopen =>
    obtain ⟨hlt, hfree, -, rfl⟩ := Table.acquire_eq hopen
    refine .enter (.second i) b hlt hfree rfl fun k d => ?_
    rw [holds_sock]
    split_ifs with h1 h2
    · subst h1
      simp [holds, hpc, SockPc.first]
    · subst h2
      simp [holds, hpc, SockPc.second, eq_comm]
    · simp [h2]
  | close b _ hsecond hfirst hnone =>
    refine .strike (.second i) b hsecond rfl fun k d => ?_
    rw [holds_sock]
    split_ifs with h1 h2
    · subst h1
      simp [holds, hfirst]
    · subst h2
      simp only [hnone, holds, hsecond, Option.some.injEq, true_and, reduceCtorEq, false_iff, not_and, not_not]
      exact Eq.symm
    · simp [h2]
  | closeAgain b _ hclosing hfirst hsecond =>
    refine .stray i b x rfl hclosing rfl fun k d => ?_
    rw [holds_sock]
    split_ifs with h1 h2
    · rw [h1, hfirst]
      rfl
    · rw [h2, hsecond]
      rfl
    · exact Iff.rfl

theorem books_client (s : Process) (j : ℕ) (x : AcceptAct) : Books s (.client j x) (s.step (.client j x)) := by
  have hm := (s.client j).step_move s.table x
  have hs : s.step (.client j x) =
      { s with
        table := ((s.client j).step s.table x).1
        client := Function.update s.client j ((s.client j).step s.table x).2 } := rfl
  rw [hs]
  generalize ((s.client j).step s.table x).1 = t at hm
  generalize ((s.client j).step s.table x).2 = pc at hm
  cases hm with
  | keep _ hfd =>
    refine .keep rfl (Or.inl rfl) fun k d => ?_
    rw [holds_client]
    split_ifs with h
    · rw [h, hfd]
      rfl
    · exact Iff.rfl
  | close d hpc =>
    refine .strike (.client j) d (by rw [holds, hpc]; rfl) rfl fun k d' => ?_
    rw [holds_client]
    split_ifs with h
    · subst h
      simp [holds, hpc, AcceptPc.fd, eq_comm]
    · simp [h]

theorem books_step (h : s.Numbered) (x : ProcessAct) : Books s x (s.step x) := by
  cases x with
  | sock i x => exact s.books_sock i x
  | client j x => exact s.books_client j x
  | openRest =>
    rw [step]
    cases hopen : s.table.acquire .rest with
    | none => exact .keep rfl (Or.inl rfl) fun _ _ => Iff.rfl
    | some r =>
      obtain ⟨hlt, hfree, -, ht⟩ := Table.acquire_eq hopen
      refine .enter .rest r.2 hlt hfree ht fun k d => ?_
      cases k <;> simp [holds, or_comm]
  | closeRest d =>
    rw [step]
    split_ifs with hd
    · refine .strike .rest d hd rfl fun k d' => ?_
      cases k <;> simp [holds, and_comm]
    · exact .keep rfl (Or.inl rfl) fun _ _ => Iff.rfl
  | accept ok =>
    by_cases hspawn : s.spawning = true
    · rw [step, if_pos hspawn]
      exact .keep rfl (Or.inl rfl) fun _ _ => Iff.rfl
    · rw [step, if_neg hspawn]
      cases hopen : (if ok then s.table.acquire (.client s.accepted) else none) with
      | none => exact .keep rfl (Or.inl rfl) fun _ _ => Iff.rfl
      | some r =>
        have hopen' : s.table.acquire (.client s.accepted) = some r := by
          cases ok
          · cases hopen
          · exact hopen
        obtain ⟨hlt, hfree, -, ht⟩ := Table.acquire_eq hopen'
        refine .enter (.client s.accepted) r.2 hlt hfree ht fun k d => ?_
        rw [holds_client]
        split_ifs with hk
        · subst hk
          simp [holds, h.unborn _ le_rfl, AcceptPc.fd, eq_comm]
        · simp [hk]
  | spawn ok =>
    rw [step]
    split
    · rename_i d hspawn hpc
      refine .keep rfl (Or.inl rfl) fun k d' => ?_
      rw [holds_client]
      split_ifs with hk <;> simp [hk, holds, hpc, AcceptPc.fd]
    · exact .keep rfl (Or.inl rfl) fun _ _ => Iff.rfl

theorem numbered_step (h : s.Numbered) (x : ProcessAct) : (s.step x).Numbered := by
  cases x with
  | sock i x => exact ⟨h.unborn, h.spawning⟩
  | openRest =>
    rw [step]
    split <;> exact ⟨h.unborn, h.spawning⟩
  | closeRest d =>
    rw [step]
    split_ifs <;> exact ⟨h.unborn, h.spawning⟩
  | accept ok =>
    by_cases hspawn : s.spawning = true
    · rw [step, if_pos hspawn]
      exact h
    · rw [step, if_neg hspawn]
      cases hopen : (if ok then s.table.acquire (.client s.accepted) else none) with
      | none => exact h
      | some r =>
        refine ⟨fun j hj => ?_, fun _ => ⟨s.accepted, r.2, rfl, Function.update_self ..⟩⟩
        have hj' : s.accepted + 1 ≤ j := hj
        show Function.update s.client s.accepted (.accepted r.2) j = _
        rw [Function.update_of_ne (by omega), h.unborn j (by omega)]
  | spawn ok =>
    rw [step]
    split
    · rename_i d hspawn hpc
      obtain ⟨n, -, hn, -⟩ := h.spawning hspawn
      refine ⟨fun j hj => ?_, fun hnot => by cases hnot⟩
      have hj' : s.accepted ≤ j := hj
      exact (Function.update_of_ne (by omega) ..).trans (h.unborn j hj')
    · exact h
  | client j x =>
    have hstep : ∀ pc : AcceptPc, pc = .unborn ∨ (∃ d, pc = .accepted d) → (pc.step s.table x).2 = pc := by
      rintro pc (rfl | ⟨d, rfl⟩) <;> cases x <;> rfl
    have hsame : ∀ {j'}, s.client j' = .unborn ∨ (∃ d, s.client j' = .accepted d) →
        (s.step (.client j x)).client j' = s.client j' := by
      intro j' hj'
      show Function.update s.client j ((s.client j).step s.table x).2 j' = _
      rcases eq_or_ne j' j with rfl | hne
      · rw [Function.update_self, hstep _ hj']
      · rw [Function.update_of_ne hne]
    refine ⟨fun j' hj' => ?_, fun hspawn => ?_⟩
    · have hunborn := h.unborn j' hj'
      rw [hsame (Or.inl hunborn), hunborn]
    · obtain ⟨n, d, hn, hpc⟩ := h.spawning hspawn
      exact ⟨n, d, hn, by rw [hsame (Or.inr ⟨d, hpc⟩), hpc]⟩

/-- What holds in every run: an open descriptor is held by the party that opened it, and lies below the limits
there have been. -/
structure Wf (L : ℕ) (s : Process) : Prop where
  numbered : s.Numbered
  backed : Backed s.table s.holds
  limit : s.table.limit ≤ max L maxConnectSocketNum
  bounded : ∀ d, s.table.entry d ≠ none → d < max L maxConnectSocketNum

theorem Wf.step {L : ℕ} (h : s.Wf L) (x : ProcessAct) : (s.step x).Wf L := by
  have hnumbered := numbered_step h.numbered x
  cases books_step h.numbered x with
  | keep hentry hlimit hholds =>
    refine ⟨hnumbered, fun k d hd => ?_, ?_, fun d hd => ?_⟩
    · rw [hentry] at hd
      exact (hholds k d).2 (h.backed k d hd)
    · rcases hlimit with hlimit | hlimit <;> rw [hlimit]
      · exact h.limit
      · exact le_max_right _ _
    · rw [hentry] at hd
      exact h.bounded d hd
  | enter k d hlt hfree htable hholds =>
    refine ⟨hnumbered, ?_, ?_, fun d' hd' => ?_⟩
    · rw [htable]
      exact h.backed.put hholds
    · rw [htable]
      exact h.limit
    · rcases eq_or_ne d' d with rfl | hne
      · exact hlt.trans_le h.limit
      · rw [htable, Table.entry_put_of_ne hne] at hd'
        exact h.bounded d' hd'
  | strike k d hheld htable hholds =>
    refine ⟨hnumbered, ?_, ?_, fun d' hd' => ?_⟩
    · rw [htable]
      exact h.backed.close hholds
    · rw [htable]
      exact h.limit
    · rw [htable] at hd'
      exact h.bounded d' (Table.entry_ne_of_close hd')
  | stray i b y hx hclosing htable hholds =>
    refine ⟨hnumbered, fun k d hd => ?_, ?_, fun d' hd' => ?_⟩
    · rw [htable] at hd
      exact (hholds k d).2 (h.backed k d (Table.entry_of_close hd))
    · rw [htable]
      exact h.limit
    · rw [htable] at hd'
      exact h.bounded d' (Table.entry_ne_of_close hd')

/-- Everybody has open what he holds, and nothing else is open. -/
def Sound (s : Process) : Prop := Accounts s.table s.holds

/-- No thread closes its socket once more while the number is in use again. -/
def Undisturbed (s : Process) : ProcessAct → Prop
  | .sock i x => ∀ b ∈ (s.sock i).closing x, s.table.entry b = none
  | _ => True

instance (s : Process) : (x : ProcessAct) → Decidable (s.Undisturbed x)
  | .sock i x => inferInstanceAs (Decidable (∀ b ∈ (s.sock i).closing x, s.table.entry b = none))
  | .openRest | .closeRest _ | .accept _ | .spawn _ | .client _ _ => isTrue trivial

/-- A further `close` is the only step that can take a descriptor from its owner. -/
theorem sound_step {L : ℕ} (h : s.Wf L) (hs : s.Sound) (x : ProcessAct) :
    (s.step x).Sound ↔ s.Undisturbed x := by
  by_cases hx : ∃ i y b, x = .sock i y ∧ (s.sock i).closing y = some b
  · obtain ⟨i, y, b, rfl, hclosing⟩ := hx
    obtain ⟨htable, hfirst, hsecond⟩ := SockPc.step_of_closing hclosing i s.table
    have hholds : ∀ k d, (s.step (.sock i y)).holds k d ↔ s.holds k d := by
      intro k d
      show ({ s with
        table := ((s.sock i).step i s.table y).1
        sock := Function.update s.sock i ((s.sock i).step i s.table y).2 } : Process).holds k d ↔ _
      rw [holds_sock]
      split_ifs with h1 h2
      · rw [h1, hfirst]
        rfl
      · rw [h2, hsecond]
        rfl
      · exact Iff.rfl
    have hclose : (s.step (.sock i y)).Sound ↔ Accounts (s.table.close b) s.holds := by
      rw [Sound, show (s.step (.sock i y)).table = s.table.close b from htable]
      exact forall₂_congr fun k d => iff_congr (hholds k d) Iff.rfl
    rw [hclose, Accounts.close_iff hs]
    refine ⟨fun hfree b' hb' => ?_, fun hfree => hfree b hclosing⟩
    rw [hclosing] at hb'
    cases hb'
    exact hfree
  · have hundisturbed : s.Undisturbed x := by
      cases x with
      | sock i y =>
        intro b hb
        exact absurd ⟨i, y, b, rfl, hb⟩ hx
      | _ => trivial
    refine iff_of_true ?_ hundisturbed
    cases books_step h.numbered x with
    | keep hentry _ hholds =>
      intro k d
      rw [hholds, hentry]
      exact hs k d
    | enter k d _ hfree htable hholds =>
      rw [Sound, htable]
      exact Accounts.put hs hfree hholds
    | strike k d hheld htable hholds =>
      rw [Sound, htable]
      exact Accounts.close hs hheld hholds
    | stray i b y hact hclosing _ _ => exact absurd ⟨i, y, b, hact, hclosing⟩ hx

theorem wf_init {L : ℕ} {rest : Finset ℕ} (hrest : ∀ d ∈ rest, d < L) : (init L rest).Wf L := by
  have hentry : ∀ {d}, (init L rest).table.entry d ≠ none → d ∈ rest := by
    intro d hd
    by_contra hnot
    exact hd (if_neg hnot)
  refine ⟨⟨fun _ _ => rfl, fun h => by cases h⟩, fun k d hd => ?_, le_max_left _ _, fun d hd => ?_⟩
  · have hmem : d ∈ rest := hentry (by rw [hd]; simp)
    rw [init] at hd
    simp only [if_pos hmem, Option.some.injEq] at hd
    exact hd ▸ hmem
  · exact (hrest d (hentry hd)).trans_le (le_max_left _ _)

theorem sound_init (L : ℕ) (rest : Finset ℕ) : (init L rest).Sound := by
  intro k d
  cases k <;> simp [init, holds, SockPc.first, SockPc.second, AcceptPc.fd]

end Process

/-- **The books.**  Everybody keeps the descriptors he holds, and nothing else is open, throughout a schedule if
and only if no thread closes its socket once more while the number is in use again. -/
theorem accounts_iff {L : ℕ} {rest : Finset ℕ} (hrest : ∀ d ∈ rest, d < L) (xs : List ProcessAct) :
    (∀ ys, ys <+: xs → (run Process.step (.init L rest) ys).Sound) ↔
      Allowed Process.step Process.Undisturbed (.init L rest) xs :=
  (Allowed.iff_prefix (I := Process.Sound) (J := Process.Wf L) (fun _ x h => h.step x)
    (fun _ x h hs => Process.sound_step h hs x) (Process.wf_init hrest) (Process.sound_init L rest)).symm

/-- The thread of file `i`, up to its event loop. -/
def connected (i : ℕ) : List ProcessAct :=
  [.sock i .create, .sock i (.call true), .sock i (.call true), .sock i (.call true), .sock i (.call true),
    .sock i (.call true), .sock i (.connect .inProgress), .sock i (.select (.ready false true)),
    .sock i (.call true), .sock i (.call true), .sock i (.call true)]

/-- The standard streams. -/
theorem standard_lt : ∀ d ∈ ({0, 1, 2} : Finset ℕ), d < 1024 := by decide

/-- A client that is accepted between the two calls of `close` loses its connection. -/
theorem accounts_iff_accept : ¬ ∀ ys, ys <+: connected 0 ++ [.sock 0 .over, .sock 0 .proceed, .accept true,
      .spawn true, .sock 0 .proceed] → (run Process.step (.init 1024 {0, 1, 2}) ys).Sound :=
  (accounts_iff standard_lt _).not.2 (by decide +kernel)

end ORaidServer
