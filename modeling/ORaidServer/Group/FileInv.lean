import ORaidServer.Group.WriteBuf
import Mathlib.Data.List.Infix

/-!
# The invariant of one file

What holds of the two buffers of a file and of its producer between any two steps, whatever the
consumer and the other producers do: `FileInv`.  The buffers hold consecutive segments of the file,
each of `READ_BUF_SIZE` bytes but for the last, at most one buffer is being written, and what is
stored, pending and still to come is the whole file.

* `FileInv.call`, `FileInv.step`: the producer's own steps keep it;
* `FileInv.consume`: so do the consumer's, which overwrite or free a full buffer.
-/

namespace ORaidServer

/-- The part of the current piece that is not stored yet. -/
def WriteLocal.pending (l : WriteLocal) (cpSize : ℕ) : List Byte :=
  match l.pc with
  | .idle | .mark _ false | .load _ false | .store _ false _ => []
  | _ => l.buffer.drop cpSize

/-- Buffer `k` of the file is being written. -/
def SingleFileInfo.Writing (x : SingleFileInfo) (k : Fin 2) : Prop := (x.buf k).flag = .writing

/-- Buffer `k` of the file is full. -/
def SingleFileInfo.Full (x : SingleFileInfo) (k : Fin 2) : Prop := (x.buf k).flag = .full

instance (x : SingleFileInfo) (k : Fin 2) : Decidable (x.Writing k) :=
  inferInstanceAs (Decidable (_ = _))

instance (x : SingleFileInfo) (k : Fin 2) : Decidable (x.Full k) :=
  inferInstanceAs (Decidable (_ = _))

/-- A rest of the piece is still to be stored: the branch with `more`, or the top of the loop. -/
def WriteLocal.Rest (l : WriteLocal) (x : SingleFileInfo) : Prop :=
  x.inBufInfo.cpSize < l.buffer.length ∧ l.buffer.length ≤ maxline

/-- What is known of the local state and `cp_size` at each place of a call. -/
def LocalInv (n : ℕ) (x : SingleFileInfo) (l : WriteLocal) : Prop :=
  match l.pc with
  | .idle => x.inBufInfo.cpSize = 0 ∧ (x.stored = n ↔ ∀ k, ¬ x.Writing k)
  | .head | .tail0 | .tail1 => l.Rest x ∧ (l.flag = false → x.inBufInfo.cpSize = 0) ∧
      (l.flag = true → ∀ k, x.Writing k → (x.buf k).bytes = [])
  | .mark k true => x.Writing k ∧ l.Rest x ∧ (x.buf k).bufSize = readBufSize
  | .mark k false => x.Writing k ∧ x.inBufInfo.cpSize = 0 ∧ x.stored = n
  | .load k true | .store k true _ => x.Full k ∧ (∀ k', ¬ x.Writing k') ∧ l.Rest x
  | .load k false | .store k false _ =>
      x.Full k ∧ (∀ k', ¬ x.Writing k') ∧ x.inBufInfo.cpSize = 0 ∧ x.stored = n

/-- The invariant of one file with content `f`, of which `pieces` are still to be handed over.  For
the buffers in `dr`, which the consumer has overwritten with its result, nothing is said about
the content. -/
structure FileInv (f : List Byte) (dr : Fin 2 → Prop) (x : SingleFileInfo) (l : WriteLocal)
    (pieces : List (List Byte)) : Prop where
  split : f.drop x.stored = l.pending x.inBufInfo.cpSize ++ pieces.flatten
  le : x.stored ≤ f.length
  pieces_le : ∀ p ∈ pieces, 0 < p.length ∧ p.length ≤ maxline
  loc : LocalInv f.length x l
  one : ∀ k k', x.Writing k → x.Writing k' → k = k'
  start : ∀ k, (x.buf k).flag ≠ .empty → readBufSize ∣ (x.buf k).start ∧ (x.buf k).start < f.length
  content : ∀ k, (x.buf k).flag ≠ .empty → ¬ dr k → (x.buf k).bytes <+: f.drop (x.buf k).start
  writing : ∀ k, x.Writing k →
    (x.buf k).start + (x.buf k).bufSize = x.stored ∧ (x.buf k).bufSize ≤ readBufSize
  full : ∀ k, x.Full k → (x.buf k).bufSize = min readBufSize (f.length - (x.buf k).start)
  idle : (∀ k, ¬ x.Writing k) → x.stored = f.length ∨ readBufSize ∣ x.stored

/-- A prefix of the file from `a` on, extended by what follows it. -/
theorem prefix_extend {f bytes p rest : List Byte} {a n : ℕ} (h : bytes <+: f.drop a)
    (hn : a + bytes.length = n) (hd : f.drop n = p ++ rest) : bytes ++ p <+: f.drop a := by
  obtain ⟨t, ht⟩ := h
  have : t = p ++ rest := by
    rw [← hd, ← hn, ← List.drop_drop, ← ht, List.drop_left]
  exact ⟨rest, by rw [← ht, this, List.append_assoc]⟩

namespace FileInv

variable {f : List Byte} {dr : Fin 2 → Prop} {c : FileCtx} {x x' : SingleFileInfo}
  {l l' : WriteLocal} {pieces : List (List Byte)}

theorem lt_of_pending (h : FileInv f dr x l pieces) (hp : l.pending x.inBufInfo.cpSize ≠ []) :
    x.stored < f.length := by
  refine lt_of_le_of_ne h.le fun he => hp ?_
  have := h.split
  rw [he, List.drop_length] at this
  exact (List.append_eq_nil_iff.1 this.symm).1

theorem mono {dr' : Fin 2 → Prop} (h : FileInv f dr x l pieces) (hdr : ∀ k, dr k → dr' k) :
    FileInv f dr' x l pieces :=
  { h with content := fun k hk hn => h.content k hk fun hd => hn (hdr k hd) }

/-- Entry of a call with the next piece. -/
theorem call {p : List Byte} (h : FileInv f dr x l (p :: pieces)) (hpc : l.pc = .idle) :
    FileInv f dr x (.call p) pieces := by
  have hloc := h.loc
  simp only [LocalInv, hpc] at hloc
  have hp := h.pieces_le p (by simp)
  exact { h with
    split := by simpa [WriteLocal.pending, WriteLocal.call, hpc, hloc.1] using h.split
    pieces_le := fun q hq => h.pieces_le q (by simp [hq])
    loc := ⟨⟨by rw [hloc.1]; exact hp.1, hp.2⟩, fun _ => hloc.1, by simp [WriteLocal.call]⟩ }

/-- A step that changes only buffer `k`, the only one that may be writing. -/
theorem update {k : Fin 2} (h : FileInv f dr x l pieces)
    (hother : ∀ k', k' ≠ k → x'.buf k' = x.buf k') (hnw : ∀ k', k' ≠ k → ¬ x.Writing k')
    (hsplit : f.drop x'.stored = l'.pending x'.inBufInfo.cpSize ++ pieces.flatten)
    (hle : x'.stored ≤ f.length) (hloc : LocalInv f.length x' l')
    (hstart : (x'.buf k).flag ≠ .empty →
      readBufSize ∣ (x'.buf k).start ∧ (x'.buf k).start < f.length)
    (hcontent : (x'.buf k).flag ≠ .empty → ¬ dr k →
      (x'.buf k).bytes <+: f.drop (x'.buf k).start)
    (hwriting : x'.Writing k →
      (x'.buf k).start + (x'.buf k).bufSize = x'.stored ∧ (x'.buf k).bufSize ≤ readBufSize)
    (hfull : x'.Full k → (x'.buf k).bufSize = min readBufSize (f.length - (x'.buf k).start))
    (hidle : ¬ x'.Writing k → x'.stored = f.length ∨ readBufSize ∣ x'.stored) :
    FileInv f dr x' l' pieces := by
  have hnw' : ∀ k', k' ≠ k → ¬ x'.Writing k' := by
    intro k' hk' hw
    exact hnw k' hk' (by rwa [SingleFileInfo.Writing, hother k' hk'] at hw)
  refine ⟨hsplit, hle, h.pieces_le, hloc, ?_, ?_, ?_, ?_, ?_, fun hno => hidle (hno k)⟩
  · intro k₁ k₂ h₁ h₂
    rw [not_imp_not.1 (hnw' k₁) h₁, not_imp_not.1 (hnw' k₂) h₂]
  all_goals
    intro k'
    rcases eq_or_ne k' k with rfl | hk'
    · assumption
  · rw [hother k' hk']
    exact h.start k'
  · rw [hother k' hk']
    exact h.content k'
  · exact fun hw => absurd hw (hnw' k' hk')
  · rw [SingleFileInfo.Full, hother k' hk']
    exact h.full k'

theorem storeInto_spill {k : Fin 2} (h : FileInv f dr c.info c.loc pieces)
    (hpc : c.loc.pc = .head) (hw : c.info.Writing k)
    (hs : (c.info.buf k).bufSize + c.loc.buffer.length > readBufSize) :
    FileInv f dr (storeInto f.length k c).info (storeInto f.length k c).loc pieces := by
  obtain ⟨⟨hcp, hlen⟩, hflag, hbytes⟩ := by simpa only [LocalInv, hpc] using h.loc
  obtain ⟨hst, hle⟩ := h.writing k hw
  have hne : (c.info.buf k).flag ≠ .empty := by rw [show (c.info.buf k).flag = .writing from hw]; simp
  -- a piece whose rest is stored finds an empty buffer, and then fits
  have hf : c.loc.flag = false := by
    by_contra hf
    have := hbytes (by simpa using hf) k hw
    rw [InBuf.bufSize, this] at hs
    have := maxline_le_readBufSize
    simp at hs
    omega
  have hcp0 := hflag hf
  have hsplit : f.drop c.info.stored = c.loc.buffer ++ pieces.flatten := by
    simpa [WriteLocal.pending, hpc, hcp0] using h.split
  have hflen := congrArg List.length hsplit
  simp only [List.length_drop, List.length_append] at hflen
  simp only [storeInto, hs, if_true]
  set cp := readBufSize - (c.info.buf k).bufSize with hcpdef
  set b : InBuf := { c.info.buf k with bytes := (c.info.buf k).bytes ++ c.loc.buffer.take cp }
  set x' := (c.info.setBuf k b).setCpSize cp
  have hcplt : cp < c.loc.buffer.length := by omega
  have hstored : x'.stored = c.info.stored + cp := by
    simp only [SingleFileInfo.stored, hcp0, x']
    rfl
  have hbk : x'.buf k = b := by simp [x']
  have hsize : b.bufSize = readBufSize := by
    simp only [InBuf.bufSize, b, List.length_append, List.length_take] at *
    omega
  have hwk : x'.Writing k := by rw [SingleFileInfo.Writing, hbk]; exact hw
  refine h.update (k := k) (fun k' hk' => by simp [x', SingleFileInfo.buf_setBuf, hk'])
    (fun k' hk' hw' => hk' (h.one k' k hw' hw)) ?_ ?_ ⟨hwk, ⟨hcplt, hlen⟩, by rw [hbk, hsize]⟩
    ?_ ?_ ?_ ?_ fun hno => absurd hwk hno
  · rw [hstored, ← List.drop_drop, hsplit, List.drop_append_of_le_length hcplt.le]
    rfl
  · omega
  · rw [hbk]
    exact fun _ => h.start k hne
  · rw [hbk]
    intro _ hdr
    have hd : f.drop c.info.stored =
        c.loc.buffer.take cp ++ (c.loc.buffer.drop cp ++ pieces.flatten) := by
      rw [hsplit, ← List.append_assoc, List.take_append_drop]
    exact prefix_extend (h.content k hne hdr) hst hd
  · rw [hbk, hsize, hstored]
    exact fun _ => ⟨by show (c.info.buf k).start + _ = _; omega, le_rfl⟩
  · intro hf
    rw [SingleFileInfo.Writing] at hwk
    rw [SingleFileInfo.Full, hwk] at hf
    cases hf

/-- The branch for a piece whose rest fits stores the pending part, whatever the local `flag`. -/
theorem storeInto_fits_eq {k : Fin 2} (h : FileInv f dr c.info c.loc pieces)
    (hpc : c.loc.pc = .head)
    (hs : ¬ (c.info.buf k).bufSize + c.loc.buffer.length > readBufSize) :
    storeInto f.length k c =
      { c with
        info := ((c.info.setBuf k { c.info.buf k with
            bytes := (c.info.buf k).bytes ++ c.loc.pending c.info.inBufInfo.cpSize }).setFileIndex
              (c.info.fileIndex + c.loc.buffer.length)).setCpSize 0
        loc := { c.loc with
          pc := if ((c.info.fileIndex + c.loc.buffer.length : ℕ) : ℤ) ≥ f.length then .mark k false
            else .idle
          flag := false } } := by
  obtain ⟨-, hflag, -⟩ := by simpa only [LocalInv, hpc] using h.loc
  have hpend : c.loc.pending c.info.inBufInfo.cpSize =
      c.loc.buffer.drop c.info.inBufInfo.cpSize := by simp [WriteLocal.pending, hpc]
  rw [hpend]
  exact storeInto_of_fits hflag hs

theorem storeInto_fits {k : Fin 2} (h : FileInv f dr c.info c.loc pieces)
    (hpc : c.loc.pc = .head) (hw : c.info.Writing k)
    (hs : ¬ (c.info.buf k).bufSize + c.loc.buffer.length > readBufSize) :
    FileInv f dr (storeInto f.length k c).info (storeInto f.length k c).loc pieces := by
  rw [h.storeInto_fits_eq hpc hs]
  obtain ⟨⟨hcp, hlen⟩, hflag, hbytes⟩ := by simpa only [LocalInv, hpc] using h.loc
  obtain ⟨hst, hle⟩ := h.writing k hw
  have hne : (c.info.buf k).flag ≠ .empty := by rw [show (c.info.buf k).flag = .writing from hw]; simp
  have hpend : c.loc.pending c.info.inBufInfo.cpSize =
      c.loc.buffer.drop c.info.inBufInfo.cpSize := by simp [WriteLocal.pending, hpc]
  have hsplit := h.split
  rw [hpend] at hsplit ⊢
  have hflen := congrArg List.length hsplit
  simp only [List.length_drop, List.length_append] at hflen
  have hlt := h.lt_of_pending (by rw [hpend]; simpa using hcp)
  set b : InBuf := { c.info.buf k with
    bytes := (c.info.buf k).bytes ++ c.loc.buffer.drop c.info.inBufInfo.cpSize } with hb
  set x' := ((c.info.setBuf k b).setFileIndex
    (c.info.fileIndex + c.loc.buffer.length)).setCpSize 0 with hx'
  have hx : x'.stored = c.info.fileIndex + c.loc.buffer.length := rfl
  have hstored : x'.stored = c.info.stored + (c.loc.buffer.length - c.info.inBufInfo.cpSize) := by
    rw [hx, SingleFileInfo.stored]
    omega
  have hbk : x'.buf k = b := by simp [hx']
  have hwk : x'.Writing k := by rw [SingleFileInfo.Writing, hbk]; exact hw
  have hsize : b.bufSize = (c.info.buf k).bufSize +
      (c.loc.buffer.length - c.info.inBufInfo.cpSize) := by
    simp [hb, InBuf.bufSize]
  have hfits : b.bufSize ≤ readBufSize := by omega
  rw [← hx]
  refine h.update (k := k) (fun k' hk' => by simp [hx', SingleFileInfo.buf_setBuf, hk'])
    (fun k' hk' hw' => hk' (h.one k' k hw' hw)) ?_ (by show x'.stored ≤ _; omega) ?_ ?_ ?_ ?_ ?_
    fun hno => absurd hwk hno
  · have : f.drop x'.stored = pieces.flatten := by
      rw [hstored, ← List.drop_drop, hsplit]
      exact List.drop_left' (by simp)
    rw [this]
    split_ifs <;> rfl
  · by_cases hend : (x'.stored : ℤ) ≥ f.length
    · rw [if_pos hend]
      exact ⟨hwk, rfl, by show x'.stored = _; omega⟩
    · rw [if_neg hend]
      exact ⟨rfl, fun he => absurd (by exact_mod_cast Eq.ge he) hend, fun hno => absurd hwk (hno k)⟩
  · rw [hbk]
    exact fun _ => h.start k hne
  · rw [hbk]
    exact fun _ hdr => prefix_extend (h.content k hne hdr) hst hsplit
  · rw [hbk, hsize, hstored]
    exact fun _ => ⟨by show (c.info.buf k).start + _ = _; omega, by omega⟩
  · intro hf
    rw [SingleFileInfo.Writing] at hwk
    rw [SingleFileInfo.Full, hwk] at hf
    cases hf

/-- A step that changes only the local state. -/
theorem relocate (h : FileInv f dr x l pieces)
    (hpend : l'.pending x.inBufInfo.cpSize = l.pending x.inBufInfo.cpSize)
    (hloc : LocalInv f.length x l') : FileInv f dr x l' pieces :=
  { h with split := by rw [hpend]; exact h.split, loc := hloc }

theorem markFull {k : Fin 2} {more : Bool} (h : FileInv f dr x l pieces)
    (hpc : l.pc = .mark k more) :
    FileInv f dr (x.setBuf k { x.buf k with flag := .full }) { l with pc := .load k more }
      pieces := by
  have hw : x.Writing k := by
    have := h.loc
    cases more <;> simp only [LocalInv, hpc] at this <;> exact this.1
  obtain ⟨hst, hle⟩ := h.writing k hw
  obtain ⟨hdvd, hlt⟩ := h.start k (by rw [show (x.buf k).flag = .writing from hw]; simp)
  set x' := x.setBuf k { x.buf k with flag := .full } with hx'
  have hbk : x'.buf k = { x.buf k with flag := .full } := by simp [hx']
  have hother : ∀ k', k' ≠ k → x'.buf k' = x.buf k' := by
    intro k' hk'
    simp [hx', SingleFileInfo.buf_setBuf, hk']
  have hno : ∀ k', ¬ x'.Writing k' := by
    intro k' hw'
    rcases eq_or_ne k' k with rfl | hk'
    · simp [SingleFileInfo.Writing, hbk] at hw'
    · rw [SingleFileInfo.Writing, hother k' hk'] at hw'
      exact hk' (h.one k' k hw' hw)
  have hfull : x'.Full k := by simp [SingleFileInfo.Full, hbk]
  have hpend : ({ l with pc := .load k more } : WriteLocal).pending x'.inBufInfo.cpSize =
      l.pending x.inBufInfo.cpSize := by cases more <;> simp [WriteLocal.pending, hpc, hx']
  -- the buffer is full, or it ends with the file
  have hend : ((x.buf k).bufSize = readBufSize ∧ x.stored < f.length) ∨ x.stored = f.length := by
    have hloc := h.loc
    cases more with
    | true =>
      simp only [LocalInv, hpc] at hloc
      refine Or.inl ⟨hloc.2.2, h.lt_of_pending ?_⟩
      simpa [WriteLocal.pending, hpc] using hloc.2.1.1
    | false =>
      simp only [LocalInv, hpc] at hloc
      exact Or.inr hloc.2.2
  refine h.update hother (fun k' hk' hw' => hk' (h.one k' k hw' hw)) ?_ h.le ?_ ?_ ?_ ?_ ?_ ?_
  · rw [hpend]
    exact h.split
  · have hloc := h.loc
    cases more <;> simp only [LocalInv, hpc] at hloc
    · exact ⟨hfull, hno, hloc.2⟩
    · exact ⟨hfull, hno, hloc.2.1⟩
  · rw [hbk]
    exact fun _ => ⟨hdvd, hlt⟩
  · rw [hbk]
    exact fun _ => h.content k (by rw [show (x.buf k).flag = .writing from hw]; simp)
  · exact fun hw' => absurd hw' (hno k)
  · rw [hbk]
    intro _
    show (x.buf k).bufSize = min readBufSize (f.length - (x.buf k).start)
    omega
  · intro _
    show x.stored = f.length ∨ readBufSize ∣ x.stored
    rcases hend with ⟨hsz, -⟩ | he
    · rw [← hst, hsz]
      exact Or.inr (Nat.dvd_add hdvd (Nat.dvd_refl _))
    · exact Or.inl he

/-- Making buffer `k` writable for the rest of the piece. -/
theorem makeWritable {k : Fin 2} {pc : WritePc} (h : FileInv f dr x l pieces)
    (hl : l.pc = .tail0 ∨ l.pc = .tail1) (hpc : pc = .tail1 ∨ pc = .head)
    (hno : ∀ k, ¬ x.Writing k) :
    FileInv f dr (makeWritable k x) { l with pc := pc } pieces := by
  obtain ⟨hrest, hflag, -⟩ : l.Rest x ∧ (l.flag = false → x.inBufInfo.cpSize = 0) ∧
      (l.flag = true → ∀ k, x.Writing k → (x.buf k).bytes = []) := by
    rcases hl with hl | hl <;> simpa only [LocalInv, hl] using h.loc
  have hpend : ({ l with pc := pc } : WriteLocal).pending x.inBufInfo.cpSize =
      l.pending x.inBufInfo.cpSize := by
    rcases hl with hl | hl <;> rcases hpc with rfl | rfl <;> simp [WriteLocal.pending, hl]
  have hlt : x.stored < f.length := by
    apply h.lt_of_pending
    rcases hl with hl | hl <;> simpa [WriteLocal.pending, hl] using hrest.1
  have hbk : (ORaidServer.makeWritable k x).buf k =
      { x.buf k with bytes := [], flag := .writing, start := x.stored } := by
    simp [ORaidServer.makeWritable]
  have hother : ∀ k', k' ≠ k → (ORaidServer.makeWritable k x).buf k' = x.buf k' := by
    intro k' hk'
    simp [ORaidServer.makeWritable, SingleFileInfo.buf_setBuf, hk']
  have hwk : (ORaidServer.makeWritable k x).Writing k := by simp [SingleFileInfo.Writing, hbk]
  have hbytes : ∀ k', (ORaidServer.makeWritable k x).Writing k' →
      ((ORaidServer.makeWritable k x).buf k').bytes = [] := by
    intro k' hw'
    rcases eq_or_ne k' k with rfl | hk'
    · rw [hbk]
    · rw [SingleFileInfo.Writing, hother k' hk'] at hw'
      exact absurd hw' (hno k')
  refine h.update hother (fun k' _ => hno k') ?_ h.le ?_ ?_ ?_ ?_ ?_ fun hn => absurd hwk hn
  · show f.drop x.stored = ({ l with pc := pc } : WriteLocal).pending x.inBufInfo.cpSize ++ _
    rw [hpend]
    exact h.split
  · rcases hpc with rfl | rfl <;> exact ⟨hrest, hflag, fun _ => hbytes⟩
  · rw [hbk]
    exact fun _ => ⟨(h.idle hno).resolve_left hlt.ne, hlt⟩
  · rw [hbk]
    exact fun _ _ => List.nil_prefix
  · rw [hbk]
    exact fun _ => ⟨rfl, Nat.zero_le _⟩
  · intro hf
    rw [SingleFileInfo.Full, hbk] at hf
    cases hf

/-- **A step of `write_buf` keeps the invariant of its file.** -/
theorem step (h : FileInv f dr c.info c.loc pieces) :
    FileInv f dr (writeBufStep f.length c).info (writeBufStep f.length c).loc pieces := by
  have hloc := h.loc
  unfold writeBufStep
  cases hpc : c.loc.pc with
  | idle => simpa only using h
  | head =>
    dsimp only
    by_cases h0 : (c.info.buf 0).flag = .writing
    · rw [if_pos h0]
      by_cases hs : (c.info.buf 0).bufSize + c.loc.buffer.length > readBufSize
      · exact h.storeInto_spill hpc h0 hs
      · exact h.storeInto_fits hpc h0 hs
    rw [if_neg h0]
    by_cases h1 : (c.info.buf 1).flag = .writing
    · rw [if_pos h1]
      by_cases hs : (c.info.buf 1).bufSize + c.loc.buffer.length > readBufSize
      · exact h.storeInto_spill hpc h1 hs
      · exact h.storeInto_fits hpc h1 hs
    · rw [if_neg h1]
      simp only [LocalInv, hpc] at hloc
      exact h.relocate (by simp [WriteLocal.pending, hpc]) hloc
  | mark k more => exact h.markFull hpc
  | load k more =>
    cases more <;> simp only [LocalInv, hpc] at hloc <;>
      exact h.relocate (by simp [WriteLocal.pending, hpc]) hloc
  | store k more v =>
    cases more with
    | true =>
      simp only [LocalInv, hpc] at hloc
      exact h.relocate (by simp [WriteLocal.pending, hpc])
        ⟨hloc.2.2, fun hf => by simp at hf, fun _ k' hw => absurd hw (hloc.2.1 k')⟩
    | false =>
      simp only [LocalInv, hpc] at hloc
      exact h.relocate (by simp [WriteLocal.pending, hpc])
        ⟨hloc.2.2.1, fun _ => hloc.2.1, fun _ => hloc.2.2.2⟩
  | tail0 =>
    dsimp only
    split_ifs with hc
    · exact h.makeWritable (Or.inl hpc) (Or.inl rfl)
        (Fin.forall_fin_two.2 ⟨by simp [SingleFileInfo.Writing, hc.1], hc.2⟩)
    · simp only [LocalInv, hpc] at hloc
      exact h.relocate (by simp [WriteLocal.pending, hpc]) hloc
  | tail1 =>
    dsimp only
    split_ifs with hc
    · exact h.makeWritable (Or.inr hpc) (Or.inr rfl)
        (Fin.forall_fin_two.2 ⟨hc.2, by simp [SingleFileInfo.Writing, hc.1]⟩)
    · simp only [LocalInv, hpc] at hloc
      exact h.relocate (by simp [WriteLocal.pending, hpc]) hloc

/-- What the consumer does to a full buffer `k`: it overwrites the content, or it frees the buffer
once the owner of the file has counted it. -/
theorem consume {k : Fin 2} {b : InBuf} {dr' : Fin 2 → Prop} (h : FileInv f dr x l pieces)
    (hfull : x.Full k)
    (hb : (b.flag = .empty ∧ ∀ more v, l.pc ≠ .load k more ∧ l.pc ≠ .store k more v) ∨
      (b.flag = .full ∧ b.start = (x.buf k).start ∧ b.bufSize = (x.buf k).bufSize ∧ dr' k))
    (hdr : ∀ k', k' ≠ k → dr k' → dr' k') : FileInv f dr' (x.setBuf k b) l pieces := by
  have hbk : (x.setBuf k b).buf k = b := by simp
  have hother : ∀ k', k' ≠ k → (x.setBuf k b).buf k' = x.buf k' := by
    intro k' hk'
    simp [SingleFileInfo.buf_setBuf, hk']
  have hwk : ¬ x.Writing k := by rw [SingleFileInfo.Writing, show (x.buf k).flag = .full from hfull]; simp
  have hw : ∀ k', (x.setBuf k b).Writing k' ↔ x.Writing k' := by
    intro k'
    rcases eq_or_ne k' k with rfl | hk'
    · refine iff_of_false (fun hw => ?_) hwk
      rw [SingleFileInfo.Writing, hbk] at hw
      rcases hb with ⟨hb, -⟩ | ⟨hb, -⟩ <;> rw [hb] at hw <;> cases hw
    · rw [SingleFileInfo.Writing, hother k' hk', SingleFileInfo.Writing]
  have hne : ∀ {k'}, x.Writing k' → k' ≠ k := fun hw' e => hwk (e ▸ hw')
  have hkf : (x.buf k).flag ≠ .empty := by rw [show (x.buf k).flag = .full from hfull]; simp
  refine ⟨h.split, h.le, h.pieces_le, ?_, ?_, ?_, ?_, ?_, ?_, ?_⟩
  · have hwe : (x.setBuf k b).Writing = x.Writing := funext fun k' => propext (hw k')
    have hbytes : ∀ {k'}, x.Writing k' → (x.setBuf k b).buf k' = x.buf k' :=
      fun hw' => hother _ (hne hw')
    have hfk : ∀ {k' more}, (l.pc = .load k' more ∨ ∃ v, l.pc = .store k' more v) → x.Full k' →
        (x.setBuf k b).Full k' := by
      intro k' more hl hf
      rcases eq_or_ne k' k with rfl | hk
      · rw [SingleFileInfo.Full, hbk]
        rcases hb with ⟨-, hb⟩ | ⟨hb, -⟩
        · rcases hl with hl | ⟨v, hl⟩
          · exact absurd hl (hb more 0).1
          · exact absurd hl (hb more v).2
        · exact hb
      · rwa [SingleFileInfo.Full, hother k' hk]
    have hloc := h.loc
    cases hpc : l.pc with
    | idle =>
      simp only [LocalInv, hpc, hwe] at hloc ⊢
      exact hloc
    | head | tail0 | tail1 =>
      simp only [LocalInv, hpc, hwe] at hloc ⊢
      exact ⟨hloc.1, hloc.2.1, fun hf k' hw' => by rw [hbytes hw']; exact hloc.2.2 hf k' hw'⟩
    | mark k' more =>
      cases more <;> simp only [LocalInv, hpc, hwe] at hloc ⊢
      · exact hloc
      · exact ⟨hloc.1, hloc.2.1, by rw [hbytes hloc.1]; exact hloc.2.2⟩
    | load k' more =>
      cases more <;> simp only [LocalInv, hpc, hwe] at hloc ⊢ <;>
        exact ⟨hfk (Or.inl hpc) hloc.1, hloc.2⟩
    | store k' more v =>
      cases more <;> simp only [LocalInv, hpc, hwe] at hloc ⊢ <;>
        exact ⟨hfk (Or.inr ⟨v, hpc⟩) hloc.1, hloc.2⟩
  · intro k₁ k₂ h₁ h₂
    exact h.one k₁ k₂ ((hw k₁).1 h₁) ((hw k₂).1 h₂)
  · intro k' hk'
    rcases eq_or_ne k' k with rfl | hk
    · rw [hbk] at hk' ⊢
      rcases hb with ⟨hb, -⟩ | ⟨-, hs, -⟩
      · exact absurd hb hk'
      · rw [hs]
        exact h.start k' hkf
    · rw [hother k' hk] at hk' ⊢
      exact h.start k' hk'
  · intro k' hk' hd
    rcases eq_or_ne k' k with rfl | hk
    · rw [hbk] at hk'
      rcases hb with ⟨hb, -⟩ | ⟨-, -, -, hd'⟩
      · exact absurd hb hk'
      · exact absurd hd' hd
    · rw [hother k' hk] at hk' ⊢
      exact h.content k' hk' fun hd' => hd (hdr k' hk hd')
  · intro k' hw'
    have hw'' := (hw k').1 hw'
    rw [hother k' (hne hw'')]
    exact h.writing k' hw''
  · intro k' hf
    rcases eq_or_ne k' k with rfl | hk
    · rw [SingleFileInfo.Full, hbk] at hf
      rw [hbk]
      rcases hb with ⟨hb, -⟩ | ⟨-, hs, hz, -⟩
      · rw [hb] at hf
        cases hf
      · rw [hs, hz]
        exact h.full k' hfull
    · rw [SingleFileInfo.Full, hother k' hk] at hf
      rw [hother k' hk]
      exact h.full k' hf
  · exact fun hno => h.idle fun k' hw' => hno k' ((hw k').2 hw')

/-- At the top of the loop the buffer being written is stored into. -/
theorem step_head {N : ℤ} {k : Fin 2} (h : FileInv f dr c.info c.loc pieces)
    (hpc : c.loc.pc = .head) (hw : c.info.Writing k) : writeBufStep N c = storeInto N k c := by
  unfold writeBufStep
  obtain rfl | rfl : k = 0 ∨ k = 1 := by omega
  · have h0 : (c.info.buf 0).flag = .writing := hw
    simp only [hpc, h0, if_true]
  · have h1 : (c.info.buf 1).flag = .writing := hw
    have h0 : (c.info.buf 0).flag ≠ .writing := fun h0 => absurd (h.one 0 1 h0 hw) (by simp)
    simp only [hpc, h0, h1, if_false, if_true]

/-- A step of `write_buf` leaves a full buffer alone. -/
theorem buf_of_full (h : FileInv f dr c.info c.loc pieces) {k : Fin 2} (hk : c.info.Full k) :
    (writeBufStep f.length c).info.buf k = c.info.buf k := by
  have hne : ∀ {k'}, c.info.Writing k' → k ≠ k' := by
    rintro k' hw rfl
    rw [SingleFileInfo.Full, show (c.info.buf k).flag = .writing from hw] at hk
    cases hk
  have hinto : ∀ {k'}, c.info.Writing k' → (storeInto f.length k' c).info.buf k = c.info.buf k := by
    intro k' hw
    unfold storeInto
    dsimp only
    split_ifs <;> simp [SingleFileInfo.buf_setBuf, hne hw]
  have hmake : ∀ {k'}, (c.info.buf k').flag = .empty →
      (ORaidServer.makeWritable k' c.info).buf k = c.info.buf k := by
    intro k' he
    rw [ORaidServer.makeWritable, SingleFileInfo.buf_setBuf, if_neg]
    rintro rfl
    rw [SingleFileInfo.Full, he] at hk
    cases hk
  have hloc := h.loc
  unfold writeBufStep
  cases hpc : c.loc.pc with
  | idle => rfl
  | head =>
    dsimp only
    split_ifs with h0 h1
    · exact hinto h0
    · exact hinto h1
    · rfl
  | mark k' more =>
    have hw : c.info.Writing k' := by
      cases more <;> simp only [LocalInv, hpc] at hloc <;> exact hloc.1
    simp [SingleFileInfo.buf_setBuf, hne hw]
  | load k' more => rfl
  | store k' more v => rfl
  | tail0 | tail1 =>
    dsimp only
    split_ifs with hc
    · exact hmake hc.1
    · rfl

/-- The pointers do not matter. -/
theorem withPtr (h : FileInv f dr x l pieces) (p : Fin 2 → Ptr) :
    FileInv f dr (x.withPtr p) l pieces :=
  ⟨h.split, h.le, h.pieces_le, h.loc, h.one, h.start, h.content, h.writing, h.full, h.idle⟩

/-- What a full buffer holds. -/
theorem bytes_of_full {k : Fin 2} (h : FileInv f dr x l pieces) (hk : x.Full k) (hdr : ¬ dr k) :
    (x.buf k).bytes = (f.drop (x.buf k).start).take readBufSize := by
  have hpre := h.content k (by rw [show (x.buf k).flag = .full from hk]; simp) hdr
  have hlen : (x.buf k).bytes.length = min readBufSize (f.drop (x.buf k).start).length := by
    rw [List.length_drop]
    exact h.full k hk
  rw [List.prefix_iff_eq_take.1 hpre, hlen, ← List.take_eq_take_min]

/-- What a step of `write_buf` does to the flags: nothing, or it marks a buffer full, or it makes a
free buffer writable while none is. -/
theorem step_cases (h : FileInv f dr c.info c.loc pieces) :
    ((∀ k, ((writeBufStep f.length c).info.buf k).flag = (c.info.buf k).flag ∧
        ((writeBufStep f.length c).info.buf k).start = (c.info.buf k).start) ∧
      ((∀ k, ¬ c.info.Writing k) → (writeBufStep f.length c).info.stored = c.info.stored)) ∨
    (∃ k, c.info.Writing k ∧
      (writeBufStep f.length c).info = c.info.setBuf k { c.info.buf k with flag := .full }) ∨
    (∃ k, (c.info.buf k).flag = .empty ∧ (∀ k', ¬ c.info.Writing k') ∧
      (c.loc.pc = if k = 0 then .tail0 else .tail1) ∧
      (writeBufStep f.length c).info = ORaidServer.makeWritable k c.info) := by
  have hinto : ∀ k, c.info.Writing k →
      (∀ k', ((storeInto f.length k c).info.buf k').flag = (c.info.buf k').flag ∧
        ((storeInto f.length k c).info.buf k').start = (c.info.buf k').start) := by
    intro k hw k'
    unfold storeInto
    dsimp only
    split_ifs <;> rcases eq_or_ne k' k with rfl | hk' <;> simp [SingleFileInfo.buf_setBuf, *]
  unfold writeBufStep
  cases hpc : c.loc.pc with
  | idle => exact Or.inl ⟨fun k => ⟨rfl, rfl⟩, fun _ => rfl⟩
  | head =>
    dsimp only
    by_cases h0 : (c.info.buf 0).flag = .writing
    · rw [if_pos h0]
      exact Or.inl ⟨hinto 0 h0, fun hno => absurd h0 (hno 0)⟩
    rw [if_neg h0]
    by_cases h1 : (c.info.buf 1).flag = .writing
    · rw [if_pos h1]
      exact Or.inl ⟨hinto 1 h1, fun hno => absurd h1 (hno 1)⟩
    · rw [if_neg h1]
      exact Or.inl ⟨fun k => ⟨rfl, rfl⟩, fun _ => rfl⟩
  | mark k more =>
    have hloc := h.loc
    refine Or.inr (Or.inl ⟨k, ?_, rfl⟩)
    cases more <;> simp only [LocalInv, hpc] at hloc <;> exact hloc.1
  | load k more => exact Or.inl ⟨fun k => ⟨rfl, rfl⟩, fun _ => rfl⟩
  | store k more v => exact Or.inl ⟨fun k => ⟨rfl, rfl⟩, fun _ => rfl⟩
  | tail0 =>
    dsimp only
    split_ifs with hc
    · exact Or.inr (Or.inr ⟨0, hc.1,
        Fin.forall_fin_two.2 ⟨by simp [SingleFileInfo.Writing, hc.1], hc.2⟩, rfl, rfl⟩)
    · exact Or.inl ⟨fun k => ⟨rfl, rfl⟩, fun _ => rfl⟩
  | tail1 =>
    dsimp only
    split_ifs with hc
    · exact Or.inr (Or.inr ⟨1, hc.1,
        Fin.forall_fin_two.2 ⟨hc.2, by simp [SingleFileInfo.Writing, hc.1]⟩, rfl, rfl⟩)
    · exact Or.inl ⟨fun k => ⟨rfl, rfl⟩, fun _ => rfl⟩

end FileInv

end ORaidServer
