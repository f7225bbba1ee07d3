import ORaidServer.Server.Accounts

/-!
# What is left open

`process_in_new_thread_file_num` makes a socket and hands it to `connect_to_server`, which overwrites it with
another one.

* `card_leftOpen`: how many descriptors are open, by their owners;
* `card_first_le`: how many threads can connect over the whole life of the process.
-/

namespace ORaidServer

open Guarded Descriptors

namespace Process

variable {s : Process} {L n : ℕ} {rest : Finset ℕ}

theorem eq_some_getD {o : Option ℕ} (h : o.isSome) : o = some (o.getD 0) := by
  obtain ⟨d, rfl⟩ := Option.isSome_iff_exists.1 h
  rfl

/-- The descriptors that are open and not in the hands of the rest of the process. -/
def leftOpen (L : ℕ) (s : Process) : Finset ℕ :=
  (Finset.range (max L maxConnectSocketNum)).filter fun d => (s.table.entry d).isSome ∧ d ∉ s.rest

/-- An undisturbed run keeps the books. -/
theorem sound_of_reach (hrest : ∀ d ∈ rest, d < L) (h : Reach step Undisturbed (init L rest) s) :
    s.Wf L ∧ s.Sound := by
  refine h.invariant (I := fun t => t.Wf L ∧ t.Sound) ⟨wf_init hrest, sound_init L rest⟩ ?_
  rintro t x ⟨hwf, hsound⟩ hx
  exact ⟨hwf.step x, (sound_step hwf hsound x).2 hx⟩

/-- The open descriptors by their owners. -/
theorem leftOpen_eq (hwf : s.Wf L) (hs : s.Sound) (hn : ∀ i, n ≤ i → s.sock i = .unborn) :
    s.leftOpen L =
      ((Finset.range n).filter fun i => (s.sock i).first.isSome).image (fun i => (s.sock i).first.getD 0) ∪
        (((Finset.range n).filter fun i => (s.sock i).second.isSome).image (fun i => (s.sock i).second.getD 0) ∪
          ((Finset.range s.accepted).filter fun j => (s.client j).fd.isSome).image
            fun j => (s.client j).fd.getD 0) := by
  have hbelow : ∀ {i}, s.sock i ≠ .unborn → i < n := fun {i} hi => by
    by_contra hge
    exact hi (hn i (by omega))
  have hclient : ∀ {j}, s.client j ≠ .unborn → j < s.accepted := fun {j} hj => by
    by_contra hge
    exact hj (hwf.numbered.unborn j (by omega))
  ext d
  simp only [leftOpen, Finset.mem_filter, Finset.mem_range, Finset.mem_union, Finset.mem_image]
  constructor
  · rintro ⟨-, hopen, hnot⟩
    obtain ⟨k, hk⟩ := Option.isSome_iff_exists.1 hopen
    have hheld := (hs k d).2 hk
    cases k with
    | rest => exact absurd hheld hnot
    | first i =>
      have hfd : (s.sock i).first = some d := hheld
      have hi : i < n := hbelow fun hpc => by rw [hpc] at hfd; cases hfd
      exact Or.inl ⟨i, ⟨hi, by rw [hfd]; rfl⟩, by rw [hfd]; rfl⟩
    | second i =>
      have hfd : (s.sock i).second = some d := hheld
      have hi : i < n := hbelow fun hpc => by rw [hpc] at hfd; cases hfd
      exact Or.inr (Or.inl ⟨i, ⟨hi, by rw [hfd]; rfl⟩, by rw [hfd]; rfl⟩)
    | client j =>
      have hfd : (s.client j).fd = some d := hheld
      have hj : j < s.accepted := hclient fun hpc => by rw [hpc] at hfd; cases hfd
      exact Or.inr (Or.inr ⟨j, ⟨hj, by rw [hfd]; rfl⟩, by rw [hfd]; rfl⟩)
  · have hopen : ∀ {k}, k ≠ .rest → s.holds k d →
        d < max L maxConnectSocketNum ∧ (s.table.entry d).isSome = true ∧ d ∉ s.rest := by
      intro k hk hheld
      have hentry := (hs k d).1 hheld
      refine ⟨hwf.bounded d (by rw [hentry]; simp), by rw [hentry]; rfl, fun hrest => hk ?_⟩
      have hentry' := (hs .rest d).1 hrest
      rw [hentry, Option.some.injEq] at hentry'
      exact hentry'
    rintro (⟨i, ⟨-, hi⟩, rfl⟩ | ⟨i, ⟨-, hi⟩, rfl⟩ | ⟨j, ⟨-, hj⟩, rfl⟩)
    · exact hopen (k := .first i) (by simp) (eq_some_getD hi)
    · exact hopen (k := .second i) (by simp) (eq_some_getD hi)
    · exact hopen (k := .client j) (by simp) (eq_some_getD hj)

theorem sock_step_self (i : ℕ) (x : SockAct) :
    (s.step (.sock i x)).sock i = ((s.sock i).step i s.table x).2 := Function.update_self ..

/-- The thread of a file takes only its own steps. -/
theorem sock_step_of_ne {i : ℕ} {x : ProcessAct} (hx : x.file ≠ some i) : (s.step x).sock i = s.sock i := by
  cases x with
  | sock j y => exact Function.update_of_ne (fun hij => hx (congrArg some hij.symm)) ..
  | openRest | closeRest d | accept ok | spawn ok =>
    rw [step]
    repeat' split
    all_goals rfl
  | client j y => rfl

/-- A thread never loses its first socket. -/
theorem first_step {i a : ℕ} (h : (s.sock i).first = some a) (x : ProcessAct) :
    ((s.step x).sock i).first = some a := by
  by_cases hx : x.file = some i
  · obtain ⟨y, rfl⟩ : ∃ y, x = .sock i y := by
      cases x with
      | sock j y => exact ⟨y, by rw [Option.some.inj hx]⟩
      | _ => cases hx
    rw [sock_step_self]
    have hm := (s.sock i).step_move i s.table y
    generalize ((s.sock i).step i s.table y).1 = t at hm
    generalize ((s.sock i).step i s.table y).2 = pc at hm
    cases hm with
    | keep _ hfirst _ => rw [hfirst, h]
    | limit b hpc | second b d t' hpc _ =>
      rw [hpc] at h
      exact h
    | closeAgain d _ _ hfirst _ => rw [hfirst, h]
    | first b t' hpc _ =>
      rw [hpc] at h
      cases h
    | close b _ _ hfirst _ => rw [hfirst, h]
  · rw [sock_step_of_ne hx, h]

theorem first_of_reach {C : Process → ProcessAct → Prop} {t : Process} {i : ℕ} (h : Reach step C s t)
    (hfirst : (s.sock i).first ≠ none) : (t.sock i).first ≠ none := by
  obtain ⟨a, ha⟩ := Option.ne_none_iff_exists'.1 hfirst
  have hstill := h.invariant (I := fun u => (u.sock i).first = some a) ha fun u x hu _ => first_step hu x
  rw [hstill]
  exact Option.some_ne_none a

/-- The first sockets and what the rest of the process has open find room in the table. -/
theorem card_first_rest_le (hwf : s.Wf L) (hs : s.Sound) {S : Finset ℕ} (hS : ∀ i ∈ S, (s.sock i).first ≠ none) :
    S.card + s.rest.card ≤ max L maxConnectSocketNum := by
  have hheld : ∀ i ∈ S, s.holds (.first i) ((s.sock i).first.getD 0) := fun i hi =>
    eq_some_getD (Option.isSome_iff_ne_none.2 (hS i hi))
  have hrest : ∀ d ∈ s.rest, s.holds .rest (id d) := fun _ hd => hd
  have hdisjoint : Disjoint (S.image fun i => (s.sock i).first.getD 0) (s.rest.image id) :=
    Accounts.disjoint_image hs (fun _ _ => by simp) hheld hrest
  have hsub : (S.image fun i => (s.sock i).first.getD 0) ∪ s.rest.image id ⊆
      Finset.range (max L maxConnectSocketNum) := by
    refine Finset.union_subset ?_ ?_ <;> intro d hd <;> obtain ⟨e, he, rfl⟩ := Finset.mem_image.1 hd
    · exact Finset.mem_range.2 (hwf.bounded _ (by rw [(hs _ _).1 (hheld e he)]; simp))
    · exact Finset.mem_range.2 (hwf.bounded _ (by rw [(hs .rest _).1 (hrest e he)]; simp))
  have hcard := Finset.card_le_card hsub
  rw [Finset.card_union_of_disjoint hdisjoint, Finset.card_range, Finset.image_id,
    Accounts.card_image hs (fun _ _ h => Holder.first.inj h) hheld] at hcard
  exact hcard

/-- The thread of a file that takes no step stays where it is. -/
theorem sock_run {i : ℕ} {xs : List ProcessAct} (h : ∀ x ∈ xs, x.file ≠ some i) :
    (run step s xs).sock i = s.sock i := by
  induction xs generalizing s with
  | nil => rfl
  | cons x xs ih =>
    obtain ⟨hx, hxs⟩ := List.forall_mem_cons.1 h
    rw [run_cons, ih hxs, sock_step_of_ne hx]

end Process

section Runs

variable {L n : ℕ} {rest : Finset ℕ} {s : Process}

/-- **What is open.**  In a run in which no further `close` finds its number in use again, the descriptors outside
of the rest of the process are the first socket of every file that ever got one, the second one where it is not
closed, and the clients that are not closed. -/
theorem card_leftOpen (hrest : ∀ d ∈ rest, d < L)
    (h : Reach Process.step Process.Undisturbed (.init L rest) s) (hn : ∀ i, n ≤ i → s.sock i = .unborn) :
    (s.leftOpen L).card =
      ((Finset.range n).filter fun i => (s.sock i).first.isSome).card +
        (((Finset.range n).filter fun i => (s.sock i).second.isSome).card +
          ((Finset.range s.accepted).filter fun j => (s.client j).fd.isSome).card) := by
  obtain ⟨hwf, hs⟩ := Process.sound_of_reach hrest h
  have hfirst : ∀ i ∈ (Finset.range n).filter (fun i => (s.sock i).first.isSome),
      s.holds (.first i) ((s.sock i).first.getD 0) := fun i hi =>
    Process.eq_some_getD (Finset.mem_filter.1 hi).2
  have hsecond : ∀ i ∈ (Finset.range n).filter (fun i => (s.sock i).second.isSome),
      s.holds (.second i) ((s.sock i).second.getD 0) := fun i hi =>
    Process.eq_some_getD (Finset.mem_filter.1 hi).2
  have hclient : ∀ j ∈ (Finset.range s.accepted).filter (fun j => (s.client j).fd.isSome),
      s.holds (.client j) ((s.client j).fd.getD 0) := fun j hj =>
    Process.eq_some_getD (Finset.mem_filter.1 hj).2
  rw [Process.leftOpen_eq hwf hs hn, Finset.card_union_of_disjoint, Finset.card_union_of_disjoint,
    Accounts.card_image hs (fun _ _ h => Holder.first.inj h) hfirst,
    Accounts.card_image hs (fun _ _ h => Holder.second.inj h) hsecond,
    Accounts.card_image hs (fun _ _ h => Holder.client.inj h) hclient]
  · exact Accounts.disjoint_image hs (fun _ _ => by simp) hsecond hclient
  · exact Finset.disjoint_union_right.2 ⟨Accounts.disjoint_image hs (fun _ _ => by simp) hfirst hsecond,
      Accounts.disjoint_image hs (fun _ _ => by simp) hfirst hclient⟩

/-- The thread of file `0` returned after its event, and the one of file `1` for want of a buffer. -/
theorem card_leftOpen_two :
    ((run Process.step (.init 1024 {0, 1, 2}) (connected 0 ++ [.sock 0 .over, .sock 0 .proceed, .sock 0 .proceed] ++
      (connected 1).dropLast ++ [.sock 1 (.call false)])).leftOpen 1024).card = 3 :=
  (card_leftOpen (n := 2) standard_lt (Allowed.reach (by decide +kernel))
    fun i hi => Process.sock_run fun x hx hfile => by
      have hlt : ∀ y ∈ connected 0 ++ [.sock 0 .over, .sock 0 .proceed, .sock 0 .proceed] ++
          (connected 1).dropLast ++ [.sock 1 (.call false)], y.file.all (· < 2) = true := by decide
      have hi' := hlt x hx
      rw [hfile] at hi'
      simp at hi'
      omega).trans (by decide +kernel)

/-- **Exhaustion.**  In such a run only as many threads as there are descriptors get past their first call of
`socket`, over the whole life of the process. -/
theorem card_first_le (hrest : ∀ d ∈ rest, d < L)
    (h : Reach Process.step Process.Undisturbed (.init L rest) s) (S : Finset ℕ)
    (hS : ∀ i ∈ S, ∃ t, Reach Process.step Process.Undisturbed t s ∧ (t.sock i).first ≠ none) :
    S.card + s.rest.card ≤ max L maxConnectSocketNum := by
  obtain ⟨hwf, hs⟩ := Process.sound_of_reach hrest h
  refine Process.card_first_rest_le hwf hs fun i hi => ?_
  obtain ⟨t, hts, hfirst⟩ := hS i hi
  exact Process.first_of_reach hts hfirst

theorem card_first_le_two :
    ({0, 1} : Finset ℕ).card +
      (run Process.step (.init 1024 {0, 1, 2}) (connected 0 ++ connected 1)).rest.card ≤
        max 1024 maxConnectSocketNum :=
  card_first_le standard_lt (Allowed.reach (by decide +kernel)) {0, 1}
    fun i hi => ⟨_, .refl, by revert i; decide +kernel⟩

end Runs

end ORaidServer
