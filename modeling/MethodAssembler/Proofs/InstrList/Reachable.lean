import MethodAssembler.Proofs.InstrList.Refinement

/-! # Reachable instruction lists

Every list that the operations make out of an empty one links a sequence. An operation that is refused counts too:
marking a safepoint changes the call also when there is no room for the marker. An operation that traps ends the
assembly, so nothing is claimed of what it leaves behind. -/

namespace MethodAssembler.InstrList

/-- One operation leads from `l` to `l'`, whether it is carried out or refused. -/
def Step (l l' : InstrList) : Prop :=
  ∃ op : ListOp, (∃ a, op.run l = .ok a l') ∨ ∃ e, op.run l = .error (.refused e) l'

/-- The lists that operations lead to from `l`. -/
inductive Edits (l : InstrList) : InstrList → Prop where
  | refl : Edits l l
  | step {l₁ l₂ : InstrList} : Edits l l₁ → Step l₁ l₂ → Edits l l₂

/-- The lists that operations lead to from an empty one. -/
def Reachable (l : InstrList) : Prop := ∃ retainNops limit, Edits (empty retainNops limit) l

/-- A list that still links a sequence and has lost none of its instructions. -/
structure Evolves (l l' : InstrList) : Prop where
  links : ∃ ids, l'.Links ids
  size_le : l.arena.size ≤ l'.arena.size

theorem Step.evolves {l l' : InstrList} {ids : List InstrId} (hs : Step l l') (h : l.Links ids) : Evolves l l' := by
  obtain ⟨op, hop⟩ := hs
  have hstep := h.refines.matches_run op
  have hgrown := PlainList.grown_plain (s := ⟨l.contents, ids, l.retainNops, l.limit⟩) op
  generalize op.plain _ = p at hstep hgrown
  -- The plain list that the operation leads to is refined by `l'` and holds no fewer instructions.
  obtain ⟨s', h', hle⟩ : ∃ s', l'.Refines s' ∧ l.contents.length ≤ s'.records.length := by
    rcases hop with ⟨a, hop⟩ | ⟨e, hop⟩
    · rw [hop] at hstep
      cases hstep with
      | ok h' => exact ⟨_, h', hgrown.2.1⟩
    · rw [hop] at hstep
      cases hstep with
      | refused h' => exact ⟨_, h', Nat.le_of_eq hgrown.2.1.symm⟩
  rw [contents_length, ← h'.size] at hle
  exact ⟨⟨_, h'.links⟩, hle⟩

theorem Edits.evolves {l l' : InstrList} {ids : List InstrId} (he : Edits l l') (h : l.Links ids) : Evolves l l' := by
  induction he with
  | refl => exact ⟨⟨ids, h⟩, Nat.le_refl _⟩
  | step _ hs ih =>
    obtain ⟨ids', h'⟩ := ih.links
    have hstep := hs.evolves h'
    exact ⟨hstep.links, Nat.le_trans ih.size_le hstep.size_le⟩

theorem Reachable.links {l : InstrList} (h : l.Reachable) : ∃ ids, l.Links ids := by
  obtain ⟨retainNops, limit, he⟩ := h
  exact (he.evolves (links_empty retainNops limit)).links

end MethodAssembler.InstrList
