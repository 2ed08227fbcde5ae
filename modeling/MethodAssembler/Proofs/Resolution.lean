import Mathlib.Data.List.Forall2
import Mathlib.Logic.Function.Basic
import MethodAssembler.MethodUnit.Assembly
import MethodAssembler.Proofs.InstrList.Operations

/-! # Resolving switch cases

A case leads to the label of its source PC, or in a verbose assembly to a case label of its own behind that label. So a
verbose resolution differs from a plain one in the case labels that stand behind each label, and in nothing else. -/

namespace MethodAssembler

/-! ### Steps of a unit

A computation on the instruction list of a unit runs as on the list alone and leaves the rest of the unit as it is. -/

namespace MethodUnit
variable {u : MethodUnit} {α β : Type} {step : ListM α}

theorem pointerSize_eq (u : MethodUnit) : u.pointerSize = 4 := by
  rw [pointerSize]
  cases u.config.instructionSet <;> rfl

theorem onList_run {a : α} {l : InstrList} (h : step u.list = .ok a l) :
    onList step u = .ok a { u with list := l } := by
  simp [onList, h]

theorem onList_error {e : Fault} {l : InstrList} (h : step u.list = .error e l) :
    onList step u = .error e { u with list := l } := by
  simp [onList, h]

theorem onList_follows {r : Checked β} {Q : β → α → InstrList → Prop} (h : Stateful.Follows r Q (step u.list)) :
    Stateful.Follows r (fun b a u' => Q b a u'.list ∧ u' = { u with list := u'.list }) (onList step u) := by
  cases hs : step u.list with
  | error e l =>
    rw [hs] at h
    exact .of_error (onList_error hs) h
  | ok a l =>
    obtain ⟨b, hr, hq⟩ := h.ok hs
    exact .of_ok (onList_run hs) hr ⟨hq, rfl⟩

end MethodUnit

/-! ### Case labels in a list -/

namespace InstrList

/-- The ids in order, behind each one its case labels. -/
def interleave (ids : List InstrId) (cases : InstrId → List InstrId) : List InstrId :=
  ids.flatMap fun x => x :: cases x

section Interleave
variable {ids pre post : List InstrId} {cases : InstrId → List InstrId} {x c : InstrId}

theorem interleave_nil (ids : List InstrId) : interleave ids (fun _ => []) = ids := by
  simp [interleave]

theorem mem_interleave_of_mem (h : x ∈ ids) : x ∈ interleave ids cases :=
  List.mem_flatMap.mpr ⟨x, h, List.mem_cons_self⟩

theorem interleave_split : interleave (pre ++ x :: post) cases =
    interleave pre cases ++ x :: (cases x ++ interleave post cases) := by
  simp [interleave]

theorem interleave_update (hx : x ∉ ids) (cs : List InstrId) :
    interleave ids (Function.update cases x cs) = interleave ids cases := by
  refine List.flatMap_congr fun y hy => ?_
  rw [Function.update_of_ne (show y ≠ x from fun h => hx (h ▸ hy))]

end Interleave

/-- A list that came out of `l₀` by linking case labels behind the ids of `l₀`. -/
structure Labelled (l₀ : InstrList) (ids : List InstrId) (cases : InstrId → List InstrId) (l : InstrList) : Prop where
  links : l.Links (interleave ids cases)
  fresh : ∀ x, ∀ c ∈ cases x, x ∈ ids ∧ l₀.arena.size ≤ c
  contents : ∃ added, l.contents = l₀.contents ++ added ∧ ∀ i ∈ added, i.opcode = .pseudo .caseLabel
  limit : l.limit = l₀.limit
  retainNops : l.retainNops = l₀.retainNops

namespace Labelled
variable {l₀ l : InstrList} {ids : List InstrId} {cases : InstrId → List InstrId} {x : InstrId}

theorem refl (h : l.Links ids) : Labelled l ids (fun _ => []) l where
  links := by rwa [interleave_nil]
  fresh _ _ hc := absurd hc List.not_mem_nil
  contents := ⟨[], by simp, by simp⟩
  limit := rfl
  retainNops := rfl

theorem size_le (h : Labelled l₀ ids cases l) : l₀.arena.size ≤ l.arena.size := by
  obtain ⟨added, hc, -⟩ := h.contents
  rw [← l₀.contents_length, ← l.contents_length, hc, List.length_append]
  exact Nat.le_add_right _ _

/-- Among the ids of the old list, the new one links the same. -/
theorem mem_iff (h : Labelled l₀ ids cases l) (hx : x < l₀.arena.size) : x ∈ interleave ids cases ↔ x ∈ ids := by
  refine ⟨fun hm => ?_, mem_interleave_of_mem⟩
  obtain ⟨y, hy, hm⟩ := List.mem_flatMap.mp hm
  rcases List.mem_cons.mp hm with rfl | hm
  · exact hy
  · exact absurd (h.fresh y x hm).2 (Nat.not_le.mpr hx)

theorem lt_size (h : Labelled l₀ ids cases l) {c : InstrId} (hc : c ∈ cases x) : c < l.arena.size :=
  h.links.lt_size (List.mem_flatMap.mpr ⟨x, (h.fresh x c hc).1, List.mem_cons_of_mem _ hc⟩)

theorem nodup (h : Labelled l₀ ids cases l) : ids.Nodup := by
  have hsub : ids.Sublist (interleave ids cases) := by
    clear h
    induction ids with
    | nil => exact List.Sublist.refl _
    | cons y ids ih =>
      rw [interleave, List.flatMap_cons, List.cons_append]
      exact (ih.trans (List.sublist_append_right _ _)).cons_cons y
  exact h.links.nodup.sublist hsub

/-- Another case label behind `x`. -/
theorem insertAfter (h : Labelled l₀ ids cases l) (hx : x ∈ ids) (i : Instruction)
    (hi : i.opcode = .pseudo .caseLabel) :
    ∃ l', InstrList.insertAfter x l.arena.size (l.allocated i) = .ok () l' ∧ l'.arena.size = l.arena.size + 1 ∧
      Labelled l₀ ids (Function.update cases x (l.arena.size :: cases x)) l' := by
  obtain ⟨pre, post, rfl⟩ := List.append_of_mem hx
  -- The label stands in the list once, so the case labels of all others stay.
  obtain ⟨hpre, hpost⟩ : x ∉ pre ∧ x ∉ post := by
    have hd := List.nodup_cons.mp (List.nodup_middle.mp h.nodup)
    simpa only [List.mem_append, not_or] using hd.1
  have hlinks := h.links
  rw [interleave_split] at hlinks
  obtain ⟨l', hinsert, hlinks', hkept⟩ := hlinks.insertAllocated i
  refine ⟨l', hinsert, ?_, ?_, ?_, ?_, hkept.limit.trans h.limit, hkept.retainNops.trans h.retainNops⟩
  · rw [hkept.size, size_allocated]
  · rw [interleave_split, interleave_update hpre, interleave_update hpost, Function.update_self]
    exact hlinks'
  · intro y c hc
    by_cases hy : y = x
    · subst hy
      rw [Function.update_self] at hc
      rcases List.mem_cons.mp hc with rfl | hc
      · exact ⟨hx, h.size_le⟩
      · exact h.fresh _ c hc
    · rw [Function.update_of_ne hy] at hc
      exact h.fresh y c hc
  · obtain ⟨added, hc, hadded⟩ := h.contents
    refine ⟨added ++ [i], ?_, fun j hj => ?_⟩
    · rw [hkept.contents, contents_allocated, hc, List.append_assoc]
    · rcases List.mem_append.mp hj with hj | hj
      · exact hadded j hj
      · rw [List.mem_singleton.mp hj, hi]

end Labelled

end InstrList

/-! ### Payloads -/

theorem wordAt_eq_ok {units : Array UInt16} {place : Nat} {w : Int32} (h : wordAt units place = .ok w) :
    place + 1 < units.size := by
  simp only [wordAt, Checked.bind_eq_ok, present_eq_ok] at h
  obtain ⟨low, -, high, hhigh, -⟩ := h
  exact (Array.getElem?_eq_some_iff.mp hhigh).1

theorem wordAt_of_lt {units : Array UInt16} {place : Nat} (h : place + 1 < units.size) :
    ∃ w, wordAt units place = .ok w := by
  have hlow : place < units.size := by omega
  simp [wordAt, h, hlow]

/-- The keys stand before the targets, so a payload that has a target for a case also has a key for it. -/
theorem SwitchPayload.key_of_relativeTarget {p : SwitchPayload} {i : Nat} {w : Int32}
    (h : p.relativeTarget i = .ok w) : ∃ key, p.key i = .ok key := by
  rw [relativeTarget] at h
  rw [key]
  cases hk : p.kind with
  | packed =>
    rw [hk] at h
    have hlt := wordAt_eq_ok h
    obtain ⟨first, hfirst⟩ := wordAt_of_lt (show 2 + 1 < p.units.size by omega)
    simp [hfirst]
  | sparse =>
    rw [hk] at h
    have hlt := wordAt_eq_ok h
    exact wordAt_of_lt (by omega)

/-! ### The plain resolution -/

/-- What a resolution goes by: whether cases get labels of their own, how many instructions there may be, the label of
    each source PC, and which of them are in the list. -/
structure Labelling where
  verbose : Bool
  limit : Option Nat
  labels : List (UInt32 × InstrId)
  linked : InstrId → Bool

def MethodUnit.labelling (u : MethodUnit) : Labelling where
  verbose := u.config.verbose
  limit := u.list.limit
  labels := u.blockLabels
  linked id := decide (id ∈ u.list.order)

namespace Labelling

/-- The label that a case leads to. Only a verbose assembly asks whether it is in the list. -/
def caseTarget (g : Labelling) (t : SwitchTable) (i : Nat) : Checked InstrId := do
  let dexPc ← t.caseDexPc i
  match g.labels.lookup dexPc with
  | none => .error (.refused (.missingBlockLabel dexPc))
  | some label =>
    if g.verbose && !g.linked label then .error (.refused (.listCorrupted (.unlinkedBlockLabel label dexPc)))
    else .ok label

/-- The number of allocated instructions when one more case is resolved: a verbose assembly allocates its label. -/
def reserveCase (g : Labelling) (count : Nat) : Checked Nat :=
  if g.verbose then InstrList.reserve g.limit count else .ok count

/-- The labels that `left` cases from case `i` on lead to, and the number of allocated instructions behind them. -/
def caseTargets (g : Labelling) (t : SwitchTable) : (left i count : Nat) → Checked (List InstrId × Nat)
  | 0, _, count => .ok ([], count)
  | left + 1, i, count => do
    let label ← g.caseTarget t i
    let count ← g.reserveCase count
    let (rest, count) ← caseTargets g t left (i + 1) count
    return (label :: rest, count)

/-- The tables with the labels that their cases lead to, and the number of allocated instructions behind them. -/
def tableTargets (g : Labelling) : List SwitchTable → (count : Nat) → Checked (List SwitchTable × Nat)
  | [], count => .ok ([], count)
  | t :: rest, count => do
    let (targets, count) ← g.caseTargets t t.payload.size 0 count
    let (rest, count) ← tableTargets g rest count
    return ({ t with targets := targets.toArray } :: rest, count)

end Labelling

namespace Labelling
variable {g : Labelling} {t : SwitchTable}

theorem caseTargets_succ (g : Labelling) (t : SwitchTable) (left i count : Nat) :
    g.caseTargets t (left + 1) i count =
      ((g.caseTarget t i >>= fun label => (g.reserveCase count).map (label, ·)) >>= fun (label, count) =>
        (g.caseTargets t left (i + 1) count).map fun (rest, count) => (label :: rest, count)) := by
  rw [caseTargets]
  cases g.caseTarget t i with
  | error e => rfl
  | ok label =>
    simp only [Checked.ok_bind]
    cases g.reserveCase count with
    | error e => rfl
    | ok count =>
      simp only [Checked.ok_bind, Except.map]
      cases g.caseTargets t left (i + 1) count <;> rfl

theorem tableTargets_cons (g : Labelling) (t : SwitchTable) (rest : List SwitchTable) (count : Nat) :
    g.tableTargets (t :: rest) count =
      (g.caseTargets t t.payload.size 0 count >>= fun (targets, count) =>
        (g.tableTargets rest count).map fun (rest, count) => ({ t with targets := targets.toArray } :: rest, count)) := by
  rw [tableTargets]
  cases g.caseTargets t t.payload.size 0 count with
  | error e => rfl
  | ok r => cases g.tableTargets rest r.2 <;> rfl

theorem mem_of_lookup {α β : Type} [BEq α] [LawfulBEq α] {entries : List (α × β)} {key : α} {value : β}
    (h : entries.lookup key = some value) : (key, value) ∈ entries := by
  obtain ⟨before, after, rfl, -⟩ := List.lookup_eq_some_iff.mp h
  exact List.mem_append_right _ List.mem_cons_self

/-- Every case of the table leads to the label of its source PC. -/
structure PlainTargets (g : Labelling) (t : SwitchTable) : Prop where
  count : t.targets.size = t.payload.size
  leads : ∀ i < t.payload.size, ∃ pc label,
    t.caseDexPc i = .ok pc ∧ g.labels.lookup pc = some label ∧ t.targets[i]? = some label

theorem PlainTargets.labels (h : PlainTargets g t) : ∀ label ∈ t.targets.toList, ∃ pc, (pc, label) ∈ g.labels := by
  intro label hlabel
  obtain ⟨i, hi⟩ := List.mem_iff_getElem?.mp hlabel
  rw [Array.getElem?_toList] at hi
  obtain ⟨pc, label', -, hlookup, htarget⟩ := h.leads i (h.count ▸ (Array.getElem?_eq_some_iff.mp hi).1)
  rw [hi] at htarget
  cases htarget
  exact ⟨pc, mem_of_lookup hlookup⟩

theorem PlainTargets.keys (h : PlainTargets g t) : ∀ i < t.payload.size, ∃ key, t.payload.key i = .ok key := by
  intro i hi
  obtain ⟨pc, label, hpc, -, -⟩ := h.leads i hi
  obtain ⟨w, hw, -⟩ := Checked.bind_eq_ok.mp hpc
  exact SwitchPayload.key_of_relativeTarget hw

theorem caseTarget_eq_ok {i : Nat} {label : InstrId} (h : g.caseTarget t i = .ok label) :
    ∃ pc, t.caseDexPc i = .ok pc ∧ g.labels.lookup pc = some label := by
  obtain ⟨dexPc, hpc, h⟩ := Checked.bind_eq_ok.mp h
  split at h
  · cases h
  · rename_i hlookup
    split at h
    · cases h
    · cases h
      exact ⟨dexPc, hpc, hlookup⟩

theorem caseTargets_eq_ok {left i count count' : Nat} {labels : List InstrId}
    (h : g.caseTargets t left i count = .ok (labels, count')) :
    labels.length = left ∧ ∀ k < left, ∃ pc label,
      t.caseDexPc (i + k) = .ok pc ∧ g.labels.lookup pc = some label ∧ labels[k]? = some label := by
  induction left generalizing i count labels with
  | zero =>
    cases h
    exact ⟨rfl, fun k hk => absurd hk (Nat.not_lt_zero k)⟩
  | succ left ih =>
    simp only [caseTargets, Checked.bind_eq_ok, Checked.pure_eq, Except.ok.injEq, Prod.mk.injEq, Prod.exists] at h
    obtain ⟨label, hlabel, count₁, -, rest, count₂, hrest, rfl, rfl⟩ := h
    obtain ⟨pc, hpc, hlookup⟩ := caseTarget_eq_ok hlabel
    obtain ⟨hlength, hleads⟩ := ih hrest
    refine ⟨by rw [List.length_cons, hlength], fun k hk => ?_⟩
    cases k with
    | zero => exact ⟨pc, label, hpc, hlookup, rfl⟩
    | succ k =>
      rw [List.getElem?_cons_succ, show i + (k + 1) = i + 1 + k by omega]
      exact hleads k (by omega)

theorem tableTargets_eq_ok {tables plain : List SwitchTable} {count count' : Nat}
    (h : g.tableTargets tables count = .ok (plain, count')) : ∀ t ∈ plain, PlainTargets g t := by
  induction tables generalizing count plain with
  | nil =>
    cases h
    exact fun _ ht => absurd ht List.not_mem_nil
  | cons t tables ih =>
    simp only [tableTargets, Checked.bind_eq_ok, Checked.pure_eq, Except.ok.injEq, Prod.mk.injEq, Prod.exists] at h
    obtain ⟨labels, count₁, hlabels, rest, count₂, hrest, rfl, rfl⟩ := h
    obtain ⟨hlength, hleads⟩ := caseTargets_eq_ok hlabels
    intro t' ht'
    rcases List.mem_cons.mp ht' with rfl | ht'
    · refine ⟨hlength, fun i hi => ?_⟩
      have hlead := hleads i hi
      rw [Nat.zero_add] at hlead
      rw [List.getElem?_toArray]
      exact hlead
    · exact ih hrest t' ht'

/-- Resolving changes the targets of tables only. -/
theorem tableTargets_same {tables plain : List SwitchTable} {count count' : Nat}
    (h : g.tableTargets tables count = .ok (plain, count')) :
    List.Forall₂ (fun t p => p = { t with targets := p.targets }) tables plain := by
  induction tables generalizing count plain with
  | nil =>
    cases h
    exact .nil
  | cons t tables ih =>
    simp only [tableTargets, Checked.bind_eq_ok, Checked.pure_eq, Except.ok.injEq, Prod.mk.injEq, Prod.exists] at h
    obtain ⟨labels, count₁, -, rest, count₂, hrest, rfl, rfl⟩ := h
    exact .cons rfl (ih hrest)

theorem tableTargets_getElem? {tables plain : List SwitchTable} {count count' n : Nat}
    (h : g.tableTargets tables count = .ok (plain, count')) (ht : tables[n]? = some t) :
    ∃ targets, plain[n]? = some { t with targets } := by
  have hsame := tableTargets_same h
  obtain ⟨hn, hget⟩ := List.getElem?_eq_some_iff.mp ht
  have hn' : n < plain.length := hsame.length_eq ▸ hn
  have heq := hsame.get hn hn'
  rw [List.get_eq_getElem, List.get_eq_getElem, hget] at heq
  exact ⟨plain[n].targets, (List.getElem?_eq_getElem hn').trans (congrArg some heq)⟩

end Labelling

/-- A target that is the label or one of its case labels. -/
def AtLabel (cases : InstrId → List InstrId) (label target : InstrId) : Prop := target = label ∨ target ∈ cases label

/-- A table that leads to the labels of another, or to case labels of theirs. -/
structure Redirected (cases : InstrId → List InstrId) (plain t : SwitchTable) : Prop where
  same : t = { plain with targets := t.targets }
  targets : List.Forall₂ (AtLabel cases) plain.targets.toList t.targets.toList

/-- More case labels than before. -/
def Grows (cases cases' : InstrId → List InstrId) : Prop := ∀ x, ∀ c ∈ cases x, c ∈ cases' x

namespace Grows
variable {cases cases' cases'' : InstrId → List InstrId}

theorem trans (h₁ : Grows cases cases') (h₂ : Grows cases' cases'') : Grows cases cases'' :=
  fun x c hc => h₂ x c (h₁ x c hc)

theorem update (cases : InstrId → List InstrId) (x c : InstrId) : Grows cases (Function.update cases x (c :: cases x)) := by
  intro y d hd
  by_cases hy : y = x
  · subst hy
    rw [Function.update_self]
    exact List.mem_cons_of_mem c hd
  · rwa [Function.update_of_ne hy]

theorem atLabel (h : Grows cases cases') {label target : InstrId} (ha : AtLabel cases label target) :
    AtLabel cases' label target :=
  ha.imp id (h label target)

end Grows

/-! ### Resolving follows the plain resolution -/

namespace MethodUnit

/-- A unit on the way from `u₀`: case labels were added to its list, and targets to its tables. -/
structure Resolving (u₀ : MethodUnit) (ids : List InstrId) (cases : InstrId → List InstrId) (u : MethodUnit) :
    Prop where
  list : InstrList.Labelled u₀.list ids cases u.list
  same : u = { u₀ with list := u.list, data := { u₀.data with switchTables := u.data.switchTables } }

/-- The labels of a unit name instructions of its list. -/
def LabelsAllocated (u : MethodUnit) : Prop := ∀ pc label, (pc, label) ∈ u.blockLabels → label < u.list.arena.size

section Resolving
variable {u₀ u : MethodUnit} {ids : List InstrId} {cases : InstrId → List InstrId} {t : SwitchTable}

/-- A case label behind its label, if there is room for one more instruction. -/
theorem labelCase_follows (h : Resolving u₀ ids cases u) {label : InstrId} (hmem : label ∈ ids) (key : Int32)
    (dexPc : UInt32) :
    Stateful.Follows (InstrList.reserve u₀.list.limit u.list.arena.size)
      (fun count target u' => u'.data = u.data ∧ count = u'.list.arena.size ∧
        ∃ cases', Resolving u₀ ids cases' u' ∧ Grows cases cases' ∧ AtLabel cases' label target)
      ((do
        let case ← onList (InstrList.alloc (caseLabel key dexPc))
        onList (InstrList.insertAfter label case)
        return case) u) := by
  have halloc := onList_follows (InstrList.alloc_follows (l := u.list) (caseLabel key dexPc))
  rw [h.list.limit] at halloc
  cases hrun : onList (InstrList.alloc (caseLabel key dexPc)) u with
  | error e u₁ =>
    rw [hrun] at halloc
    rw [Stateful.bind_of_error hrun]
    exact halloc
  | ok case u₁ =>
    obtain ⟨count, hreserve, ⟨rfl, rfl, hlist⟩, hu₁⟩ := halloc.ok hrun
    obtain ⟨l', hinsert, hsize, hlabelled⟩ := h.list.insertAfter hmem (caseLabel key dexPc) rfl
    rw [Stateful.bind_of_ok hrun, Stateful.bind_of_ok (onList_run (by rw [hlist]; exact hinsert))]
    refine ⟨_, hreserve, ?_, hsize.symm, _, ⟨hlabelled, ?_⟩, Grows.update _ _ _, .inr ?_⟩
    · rw [hu₁]
    · rw [hu₁, h.same]
    · rw [Function.update_self]
      exact List.mem_cons_self

theorem resolveCase_follows (hl : u₀.list.Links ids) (ha : u₀.LabelsAllocated) (h : Resolving u₀ ids cases u) (i : Nat) :
    Stateful.Follows
      (u₀.labelling.caseTarget t i >>= fun label => (u₀.labelling.reserveCase u.list.arena.size).map (label, ·))
      (fun (label, count) target u' => u'.data = u.data ∧ count = u'.list.arena.size ∧
        ∃ cases', Resolving u₀ ids cases' u' ∧ Grows cases cases' ∧ AtLabel cases' label target)
      (resolveCase t i u) := by
  have hlookup : ∀ pc, u.blockLabel? pc = u₀.labelling.labels.lookup pc := fun _ => by rw [h.same]; rfl
  have hverbose : u.config.verbose = u₀.labelling.verbose := by rw [h.same]; rfl
  cases hpc : t.caseDexPc i with
  | error e => simp [resolveCase, Labelling.caseTarget, hpc, Stateful.Follows]
  | ok dexPc =>
    simp only [resolveCase, Labelling.caseTarget, hpc, Stateful.lift_ok_bind_run, Stateful.get_bind_run,
      Checked.ok_bind, hlookup, hverbose, Labelling.reserveCase]
    cases hlabel : u₀.labelling.labels.lookup dexPc with
    | none => rfl
    | some label =>
      cases hv : u₀.labelling.verbose with
      | false => exact ⟨_, rfl, rfl, rfl, cases, h, fun _ _ hc => hc, .inl rfl⟩
      | true =>
        have hlt : label < u₀.list.arena.size := ha _ _ (Labelling.mem_of_lookup hlabel)
        obtain ⟨n, hn⟩ : ∃ n, u.list.arena[label]? = some n :=
          ⟨_, Array.getElem?_eq_getElem (Nat.lt_of_lt_of_le hlt h.list.size_le)⟩
        -- Case labels are new instructions, so they do not change whether an old one is in the list.
        have hlinked : n.linked = u₀.labelling.linked label := by
          rw [Bool.eq_iff_iff, h.list.links.linked_iff hn, h.list.mem_iff hlt, labelling, decide_eq_true_iff, hl.order_eq]
        simp only [if_true, InstrList.node, hn, present_some, Stateful.lift_ok_bind_run, hlinked, Bool.true_and]
        cases hm : u₀.labelling.linked label with
        | false => rfl
        | true =>
          have hmem : label ∈ ids := hl.order_eq ▸ of_decide_eq_true hm
          obtain ⟨w, hw, -⟩ := Checked.bind_eq_ok.mp (show t.payload.relativeTarget i >>= _ = _ from hpc)
          obtain ⟨key, hkey⟩ := SwitchPayload.key_of_relativeTarget hw
          simp only [hkey, Stateful.lift_ok_bind_run, Bool.not_true, Bool.false_eq_true, if_false, Checked.ok_bind]
          exact (labelCase_follows h hmem key dexPc).map fun _ _ _ hq => hq

theorem modifyTable_run {done rest : List SwitchTable} {t : SwitchTable} (f : SwitchTable → SwitchTable)
    (h : u.data.switchTables = done ++ t :: rest) :
    modifyTable done.length f u = .ok () { u with data := { u.data with switchTables := done ++ f t :: rest } } := by
  simp [modifyTable, h, InstrList.modify_length]

theorem resolveCases_follows {done rest : List SwitchTable} {t' : SwitchTable} (hl : u₀.list.Links ids)
    (ha : u₀.LabelsAllocated) (h : Resolving u₀ ids cases u) (htables : u.data.switchTables = done ++ t' :: rest)
    (left i : Nat) :
    Stateful.Follows (u₀.labelling.caseTargets t left i u.list.arena.size)
      (fun (labels, count) _ u' => count = u'.list.arena.size ∧ ∃ cases' targets, Resolving u₀ ids cases' u' ∧
        Grows cases cases' ∧ List.Forall₂ (AtLabel cases') labels targets ∧
        u'.data.switchTables = done ++ { t' with targets := t'.targets ++ targets } :: rest)
      (resolveCases done.length t left i u) := by
  induction left generalizing u cases t' i with
  | zero => exact ⟨_, rfl, rfl, cases, [], h, fun _ _ hc => hc, .nil, by simp [htables]⟩
  | succ left ih =>
    rw [Labelling.caseTargets_succ, resolveCases]
    refine (resolveCase_follows hl ha h i).bind ?_
    rintro ⟨label, count⟩ target u₁ ⟨hdata, rfl, cases₁, h₁, hgrows, hlabel⟩
    rw [Stateful.bind_of_ok (modifyTable_run _ (hdata ▸ htables))]
    have h₂ : Resolving u₀ ids cases₁ { u₁ with data := { u₁.data with
        switchTables := done ++ { t' with targets := t'.targets.push target } :: rest } } :=
      ⟨h₁.list, by rw [h₁.same]⟩
    refine (ih h₂ rfl (i + 1)).map ?_
    rintro ⟨labels, count⟩ _ u₃ ⟨hcount, cases₃, targets, h₃, hgrows₃, htargets, hresult⟩
    refine ⟨hcount, cases₃, target :: targets, h₃, hgrows.trans hgrows₃, .cons (hgrows₃.atLabel hlabel) htargets, ?_⟩
    simp [hresult]

theorem resolveTables_follows {done tables : List SwitchTable} (hl : u₀.list.Links ids) (ha : u₀.LabelsAllocated)
    (h : Resolving u₀ ids cases u) (htables : u.data.switchTables = done ++ tables) :
    Stateful.Follows (u₀.labelling.tableTargets tables u.list.arena.size)
      (fun (plain, count) _ u' => count = u'.list.arena.size ∧ ∃ cases' resolved, Resolving u₀ ids cases' u' ∧
        Grows cases cases' ∧ List.Forall₂ (Redirected cases') plain resolved ∧
        u'.data.switchTables = done ++ resolved)
      (resolveTables done.length tables u) := by
  induction tables generalizing u cases done with
  | nil => exact ⟨_, rfl, rfl, cases, [], h, fun _ _ hc => hc, .nil, htables⟩
  | cons t tables ih =>
    rw [Labelling.tableTargets_cons, resolveTables, Stateful.bind_of_ok (modifyTable_run _ htables)]
    have h₁ : Resolving u₀ ids cases { u with data := { u.data with
        switchTables := done ++ { t with targets := #[] } :: tables } } :=
      ⟨h.list, by rw [h.same]⟩
    refine (resolveCases_follows hl ha h₁ rfl _ _).bind ?_
    rintro ⟨labels, count⟩ _ u₂ ⟨rfl, cases₂, targets, h₂, hgrows₂, htargets, hresult⟩
    -- The table just resolved is done, and the others follow it.
    have htables₂ : u₂.data.switchTables = (done ++ [{ t with targets := targets.toArray }]) ++ tables := by
      simp [hresult]
    have hnext := ih h₂ htables₂
    rw [List.length_append, List.length_singleton] at hnext
    refine hnext.map ?_
    rintro ⟨plain, count⟩ _ u₃ ⟨hcount, cases₃, resolved, h₃, hgrows₃, hresolved, hu₃⟩
    refine ⟨hcount, cases₃, { t with targets := targets.toArray } :: resolved, h₃, hgrows₂.trans hgrows₃,
      .cons ⟨rfl, ?_⟩ hresolved, by simp [hu₃]⟩
    simpa using htargets.imp fun _ _ => hgrows₃.atLabel

/-- Resolving all switches: the plain resolution, with case labels in place of some labels. -/
theorem resolveSwitches_follows (hl : u.list.Links ids) (ha : u.LabelsAllocated) :
    Stateful.Follows (u.labelling.tableTargets u.data.switchTables u.list.arena.size)
      (fun (plain, count) _ u' => count = u'.list.arena.size ∧ ∃ cases, Resolving u ids cases u' ∧
        List.Forall₂ (Redirected cases) plain u'.data.switchTables)
      (resolveSwitches u) := by
  have h : Resolving u ids (fun _ => []) u := ⟨.refl hl, rfl⟩
  have htables : u.data.switchTables = [] ++ u.data.switchTables := rfl
  refine (resolveTables_follows hl ha h htables).mono ?_
  rintro ⟨plain, count⟩ _ u' ⟨hcount, cases, resolved, hu', -, hresolved, hresult⟩
  exact ⟨hcount, cases, hu', hresult ▸ hresolved⟩

end Resolving

end MethodUnit

end MethodAssembler
