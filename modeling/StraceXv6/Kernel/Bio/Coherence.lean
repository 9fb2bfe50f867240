import StraceXv6.Kernel.Bio.Order

namespace StraceXv6.Kernel.Bio

open Function Data

/-! What is read from the cache is what was last written, however buffers are recycled and
written back. -/

namespace Cache

variable {P D : Type}

def Saves (c : Cache P D) : Label P D → Prop
  | .brelse _ b => c.unsaved b = false
  | _ => True

instance decidableSaves (c : Cache P D) (label : Label P D) : Decidable (c.Saves label) :=
  match label with
  | .brelse _ _ => inferInstanceAs (Decidable (_ = _))
  | .bget _ _ _ | .rescan _ | .stir _ | .iderw _ _ | .modify _ _ _ | .mark _ _ =>
    inferInstanceAs (Decidable True)

def Written (c : Cache P D) (block : UInt32 × UInt32) : Prop :=
  ∀ b, (c.buf b).block = block → (c.buf b).dirty = false ∧ c.unsaved b = false

structure Coherent (c : Cache P D) : Prop where
  valid : ∀ b, (c.buf b).valid = true → (c.buf b).data = c.contents (c.buf b).block
  disk : ∀ block, c.Written block → c.disk block = c.contents block
  pinned : ∀ b, (c.buf b).dirty = true ∨ c.unsaved b = true → (c.buf b).valid = true
  held : ∀ b, c.unsaved b = true → (c.buf b).busy = true

section

variable {c c' : Cache P D} {order : List BufIx} {b : BufIx} {buf : Buf D}

theorem Kept.used_of_valid (kept : Kept c order) (valid : (c.buf b).valid = true) : c.Used b := by
  by_contra unused
  exact absurd (valid.symm.trans (kept.fresh b unused).2.1) (by simp)

theorem Coherent.setBuf (coherent : Coherent c) (bufs : c'.buf = update c.buf b buf)
    (others : ∀ a, a ≠ b → c'.unsaved a = c.unsaved a)
    (elsewhere : ∀ a, a ≠ b → (c.buf a).valid = true →
      c'.contents (c.buf a).block = c.contents (c.buf a).block)
    (valid : buf.valid = true → buf.data = c'.contents buf.block)
    (disk : ∀ block, c'.Written block → c'.disk block = c'.contents block)
    (pinned : buf.dirty = true ∨ c'.unsaved b = true → buf.valid = true)
    (held : c'.unsaved b = true → buf.busy = true) : Coherent c' := by
  have here : c'.buf b = buf := by rw [bufs, update_self]
  have there : ∀ a, a ≠ b → c'.buf a = c.buf a := by
    intro a other
    rw [bufs, update_of_ne other]
  refine ⟨?_, disk, ?_, ?_⟩
  · intro a
    by_cases same : a = b
    · rw [same, here]
      exact valid
    · rw [there a same]
      intro isValid
      rw [elsewhere a same isValid]
      exact coherent.valid a isValid
  · intro a
    by_cases same : a = b
    · rw [same, here]
      exact pinned
    · rw [there a same, others a same]
      exact coherent.pinned a
  · intro a
    by_cases same : a = b
    · rw [same, here]
      exact held
    · rw [there a same, others a same]
      exact coherent.held a

theorem Coherent.written (coherent : Coherent c) (kept : Kept c order) (used : c.Used b)
    (clean : (c.buf b).dirty = false) (saved : c.unsaved b = false) :
    c.Written (c.buf b).block := by
  intro a same
  by_cases mine : a = b
  · rw [mine]
    exact ⟨clean, saved⟩
  · have unpinned : ¬((c.buf a).dirty = true ∨ c.unsaved a = true) := by
      intro pinned
      exact mine (kept.unique (kept.used_of_valid (coherent.pinned a pinned)) used same)
    simpa [not_or] using unpinned

variable {block : UInt32 × UInt32}

theorem Written.of_setBuf (written : c'.Written block) (bufs : c'.buf = update c.buf b buf)
    (others : ∀ a, a ≠ b → c'.unsaved a = c.unsaved a)
    (mine : (c.buf b).block = block → (c.buf b).dirty = false ∧ c.unsaved b = false) :
    c.Written block := by
  intro a same
  by_cases equal : a = b
  · rw [equal] at same ⊢
    exact mine same
  · have after := written a
    rw [bufs, update_of_ne equal, others a equal] at after
    exact after same

theorem Written.self (written : c'.Written block) (bufs : c'.buf = update c.buf b buf)
    (same : buf.block = block) : buf.dirty = false ∧ c'.unsaved b = false := by
  have after := written b
  rw [bufs, update_self] at after
  exact after same

theorem Coherent.setBusy (coherent : Coherent c) {busy : Bool}
    (bufs : c'.buf = update c.buf b { c.buf b with busy := busy })
    (unsaved : c'.unsaved = c.unsaved) (contents : c'.contents = c.contents)
    (disk : c'.disk = c.disk) (held : c.unsaved b = true → busy = true) : Coherent c' := by
  refine coherent.setBuf bufs (fun _ _ => by rw [unsaved]) (fun _ _ _ => by rw [contents]) ?_ ?_
    ?_ ?_
  · rw [contents]
    exact coherent.valid b
  · intro block written
    rw [disk, contents]
    refine coherent.disk block (written.of_setBuf bufs (fun _ _ => by rw [unsaved]) ?_)
    intro here
    have after := written.self bufs here
    rwa [unsaved] at after
  · rw [unsaved]
    exact coherent.pinned b
  · rw [unsaved]
    exact held

variable [DecidableEq P] {label : Label P D}

theorem Coherent.moved (coherent : Coherent c) (kept : Kept c order) (saves : c.Saves label)
    (moved : Moved c label c') : Coherent c' := by
  cases moved with
  | hit =>
    exact coherent.setBusy rfl rfl rfl rfl (fun _ => rfl)
  | slept | stirred => exact { coherent with }
  | @recycled p b dev blockno _ _ victim =>
    obtain ⟨idle, clean⟩ := kept.clean_of_victim victim
    have saved : c.unsaved b = false := by
      rw [← Bool.not_eq_true]
      exact fun unsaved => absurd ((coherent.held b unsaved).symm.trans idle) (by simp)
    refine coherent.setBuf rfl (fun _ _ => rfl) (fun _ _ _ => rfl) ?_ ?_ ?_ (fun _ => rfl)
    · exact fun valid => absurd valid (by simp)
    · intro block written
      exact coherent.disk block (written.of_setBuf rfl (fun _ _ => rfl) fun _ => ⟨clean, saved⟩)
    · intro pinned
      cases pinned with
      | inl dirty => cases dirty
      | inr unsaved => exact absurd (unsaved.symm.trans saved) (by simp)
  | @stored p b has dirty =>
    have valid := coherent.pinned b (.inl dirty)
    refine coherent.setBuf rfl (fun _ _ => rfl) (fun _ _ _ => rfl) (fun _ => coherent.valid b valid)
      ?_ (fun _ => rfl) (coherent.held b)
    intro block written
    change update c.disk (c.buf b).block (c.buf b).data block = c.contents block
    by_cases same : block = (c.buf b).block
    · rw [same, update_self]
      exact coherent.valid b valid
    · rw [update_of_ne same]
      exact coherent.disk block
        (written.of_setBuf rfl (fun _ _ => rfl) fun here => absurd here.symm same)
  | @loaded p b has clean invalid =>
    have saved : c.unsaved b = false := by
      rw [← Bool.not_eq_true]
      exact fun unsaved =>
        absurd ((coherent.pinned b (.inr unsaved)).symm.trans invalid) (by simp)
    have written := coherent.written kept (kept.used_of_has has) clean saved
    refine coherent.setBuf rfl (fun _ _ => rfl) (fun _ _ _ => rfl)
      (fun _ => coherent.disk _ written) ?_ (fun _ => rfl) (coherent.held b)
    intro block after
    exact coherent.disk block (after.of_setBuf rfl (fun _ _ => rfl) fun _ => ⟨clean, saved⟩)
  | @modified p b data has valid =>
    have used := kept.used_of_has has
    refine coherent.setBuf rfl (fun a other => update_of_ne other ..) ?_ ?_ ?_
      (fun _ => valid) (fun _ => kept.busy_of_has has)
    · intro a other isValid
      refine update_of_ne ?_ ..
      exact fun same => other (kept.unique (kept.used_of_valid isValid) used same)
    · intro _
      change data = update c.contents (c.buf b).block data (c.buf b).block
      rw [update_self]
    · intro block written
      have different : block ≠ (c.buf b).block := by
        intro same
        have saved := (written.self rfl same.symm).2
        change update c.unsaved b true b = false at saved
        rw [update_self] at saved
        cases saved
      change c.disk block = update c.contents (c.buf b).block data block
      rw [update_of_ne different]
      exact coherent.disk block (written.of_setBuf rfl
        (fun a other => update_of_ne other ..) fun here => absurd here.symm different)
  | @marked p b has valid =>
    have saved : update c.unsaved b false b = false := update_self ..
    refine coherent.setBuf rfl (fun a other => update_of_ne other ..) (fun _ _ _ => rfl)
      (fun _ => coherent.valid b valid) ?_ (fun _ => valid)
      (fun unsaved => absurd (unsaved.symm.trans saved) (by simp))
    intro block written
    have different : block ≠ (c.buf b).block :=
      fun same => absurd (written.self rfl same.symm).1 (by simp)
    exact coherent.disk block (written.of_setBuf rfl
      (fun a other => update_of_ne other ..) fun here => absurd here.symm different)
  | @released p b has =>
    refine coherent.setBusy rfl rfl rfl rfl ?_
    exact fun unsaved => absurd (unsaved.symm.trans saves) (by simp)

theorem coherent_binit (zero : D) (disk : UInt32 × UInt32 → D) :
    Coherent (binit zero disk : Cache P D) := by
  refine ⟨?_, fun _ _ => rfl, ?_, ?_⟩
  · exact fun b valid => absurd valid (by simp [binit])
  · exact fun b pinned => absurd pinned (by simp [binit])
  · exact fun b unsaved => absurd unsaved (by simp [binit])

theorem Kept.block_of_bget (kept : Kept c order) {p : P} {dev blockno : UInt32}
    (got : c.bget p dev blockno = some c') : c'.handles = c.handles ∨
      ∃ b, c'.handles = (p, b) :: c.handles ∧ (c'.buf b).block = (dev, blockno) := by
  unfold bget at got
  split at got
  next => cases got
  next b lookup =>
    split at got
    next =>
      cases got
      exact .inl rfl
    next =>
      cases got
      rw [kept.lookup_eq] at lookup
      have block := Kept.caches_iff.mp (List.find?_some (Option.some.inj lookup))
      refine .inr ⟨b, rfl, ?_⟩
      change (update c.buf b { c.buf b with busy := true } b).block = _
      rw [update_self]
      exact block
  next =>
    split at got
    next b _ =>
      cases got
      refine .inr ⟨b, rfl, ?_⟩
      change (update c.buf b _ b).block = _
      rw [update_self]
      rfl
    next => cases got

/-- In every run, a buffer that was read has what was last given to its block, the block that
was asked for, as long as a process has it; and what the disk does not have yet is in a
buffer that is dirty or in use. -/
theorem reads_in_every_run {zero : D} {disk : UInt32 × UInt32 → D} {labels : List (Label P D)}
    (conforms : Conforms step Saves (binit zero disk) labels)
    (reached : run step (binit zero disk) labels = some c) :
    (∀ p b, (p, b) ∈ c.handles → (c.buf b).valid = true →
      (c.buf b).data = c.contents (c.buf b).block) ∧
      (∀ p dev blockno c', c.bget p dev blockno = some c' → c'.handles = c.handles ∨
        ∃ b, c'.handles = (p, b) :: c.handles ∧ (c'.buf b).block = (dev, blockno)) ∧
      (∀ label c', c.step label = some c' → ∀ p b, (p, b) ∈ c.handles →
        (c'.buf b).block = (c.buf b).block) ∧
      ∀ block, c.disk block = c.contents block ∨
        ∃ b, (c.buf b).block = block ∧ (c.buf b).data = c.contents block ∧
          ((c.buf b).dirty = true ∨ (c.buf b).busy = true) := by
  obtain ⟨⟨order, kept⟩, coherent⟩ : (∃ order, Kept c order) ∧ Coherent c := by
    refine run_invariant (fun c => (∃ order, Kept c order) ∧ Coherent c) ?_
      ⟨⟨_, kept_binit zero disk⟩, coherent_binit zero disk⟩ conforms reached
    intro c label c' before saves stepped
    obtain ⟨⟨order, kept⟩, coherent⟩ := before
    have moved := moved_of_step stepped
    exact ⟨kept.moved moved, coherent.moved kept saves moved⟩
  refine ⟨fun _ b _ => coherent.valid b, fun _ _ _ _ => kept.block_of_bget, ?_, ?_⟩
  · intro label c' stepped p b member
    exact kept.block_of_moved (moved_of_step stepped) (.inl (kept.busy_of_handle member))
  · intro block
    by_cases written : c.Written block
    · exact .inl (coherent.disk block written)
    · obtain ⟨b, newer⟩ := not_forall.mp written
      obtain ⟨here, newer⟩ := Classical.not_imp.mp newer
      have pinned : (c.buf b).dirty = true ∨ c.unsaved b = true := by
        by_contra neither
        exact newer (by simpa [not_or] using neither)
      refine .inr ⟨b, here, ?_, pinned.imp_right (coherent.held b)⟩
      rw [← here]
      exact coherent.valid b (coherent.pinned b pinned)

def writeBack : List (Label Nat Nat) :=
  [.bget 0 1 5, .iderw 0 0, .modify 0 0 7, .mark 0 0, .brelse 0 0, .bget 1 1 5, .mark 1 0,
    .iderw 1 0, .brelse 1 0, .bget 0 1 5]

theorem reads_in_writeBack :
    ∃ c : Cache Nat Nat, run step (binit 0 fun _ => 0) writeBack = some c ∧
      (c.buf 0).data = 7 ∧ (c.buf 0).data = c.contents (c.buf 0).block := by
  have conforms : Conforms step Saves (binit 0 fun _ => 0 : Cache Nat Nat) writeBack := by
    decide +kernel
  have runs : (run step (binit 0 fun _ => 0 : Cache Nat Nat) writeBack).map
      (fun c => (c.handles, (c.buf 0).valid, (c.buf 0).data)) = some ([(0, 0)], true, 7) := by
    decide +kernel
  obtain ⟨c, reached, result⟩ := Option.map_eq_some_iff.mp runs
  simp only [Prod.mk.injEq] at result
  obtain ⟨handles, valid, data⟩ := result
  refine ⟨c, reached, data, (reads_in_every_run conforms reached).1 0 0 ?_ valid⟩
  rw [handles]
  exact List.mem_singleton_self _

end

end Cache

end StraceXv6.Kernel.Bio
