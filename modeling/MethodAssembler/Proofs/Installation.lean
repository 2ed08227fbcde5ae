import MethodAssembler.MethodUnit.Assembly
import MethodAssembler.Proofs.Layout
import MethodAssembler.Proofs.Offsets

/-! # Installation

Installing data writes them at the offsets of their layout. As long as the placements ascend, an image is never past
the place it has to go to, so an installation can only stop where the origin of a switch table cannot be told. -/

namespace MethodAssembler

namespace Image

/-- What an installation adds to an image: bytes at their places, and patches. -/
structure Extends (m : Image) (ps : List Placement) (patches : List Patch) (m' : Image) : Prop where
  code : m'.code = m.code.putAll ps
  patches : m'.patches.toList = m.patches.toList ++ patches

theorem Extends.trans {m₁ m₂ m₃ : Image} {ps qs : List Placement} {as bs : List Patch} (h₁ : Extends m₁ ps as m₂)
    (h₂ : Extends m₂ qs bs m₃) : Extends m₁ (ps ++ qs) (as ++ bs) m₃ where
  code := by rw [h₂.code, h₁.code, Bytes.putAll_append]
  patches := by rw [h₂.patches, h₁.patches, List.append_assoc]

theorem Extends.ascends {m m' : Image} {ps qs : List Placement} {patches : List Patch} {stop : Nat}
    (h : Extends m ps patches m') (ha : Ascends m.code.size (ps ++ qs) stop) : Ascends m'.code.size qs stop := by
  rw [h.code]
  exact Bytes.ascends_putAll ha

section Steps
variable {m : Image} {offset : UInt32}

theorem seek_run (part : ImagePart) (h : m.code.size ≤ offset.toNat) :
    seek part offset m = .ok () { m with code := m.code.padTo offset } := by
  have hposition : (m.code.padTo offset).position = offset := by
    rw [Bytes.position, Bytes.padTo_size h, UInt32.ofNat_toNat]
  simp [seek, modifyCode, requireAt, hposition]

/-- Going to an offset fails only where the image does not come to stand there. -/
theorem seek_error {part : ImagePart} {fault : Fault} {m' : Image} (h : seek part offset m = .error fault m') :
    ∃ reached, fault = .refused (.layoutMismatch part offset reached) := by
  simp only [seek, modifyCode, requireAt, Stateful.modify_bind_run, Stateful.get_bind_run] at h
  split at h
  · cases h
    exact ⟨_, rfl⟩
  · cases h

theorem seek_bind_error {part : ImagePart} {f : Unit → ImageM Unit} {fault : Fault} {m' : Image}
    (h : (seek part offset >>= f) m = .error fault m') :
    (∃ reached, fault = .refused (.layoutMismatch part offset reached)) ∨ ∃ m₁, f () m₁ = .error fault m' := by
  cases hseek : seek part offset m with
  | error e m₁ =>
    rw [Stateful.bind_of_error hseek] at h
    cases h
    exact .inl (seek_error hseek)
  | ok _ m₁ =>
    rw [Stateful.bind_of_ok hseek] at h
    exact .inr ⟨m₁, h⟩

theorem seek_extends (part : ImagePart) (h : m.code.size ≤ offset.toNat) :
    ∃ m', seek part offset m = .ok () m' ∧ Extends m [⟨offset, []⟩] [] m' :=
  ⟨_, seek_run part h, by simp [Bytes.putAll, Bytes.put], by simp⟩

theorem seek_bind_run {part : ImagePart} {f : Unit → ImageM Unit} (h : m.code.size ≤ offset.toNat) :
    (seek part offset >>= f) m = f () { m with code := m.code.padTo offset } :=
  Stateful.bind_of_ok (seek_run part h)

/-- Items that are installed one after the other, each at its place, with the patches that belong to it. An item
    stops the installation where `check` says. -/
theorem forM_follows {α : Type} {f : α → ImageM Unit} {check : α → Checked Unit} (place : α → Placement)
    (patch : α → List Patch) {xs : List α} {stop : Nat}
    (hf : ∀ x ∈ xs, ∀ m : Image, m.code.size ≤ (place x).start →
      Stateful.Follows (check x) (fun _ _ m' => Extends m [place x] (patch x) m') (f x m))
    (ha : Ascends m.code.size (xs.map place) stop) :
    Stateful.Follows (xs.forM check) (fun _ _ m' => Extends m (xs.map place) (xs.flatMap patch) m') (xs.forM f m) := by
  induction xs generalizing m with
  | nil => exact ⟨(), rfl, rfl, by simp⟩
  | cons x xs ih =>
    show Stateful.Follows (check x >>= fun _ => xs.forM check) _ ((f x >>= fun _ => xs.forM f) m)
    refine (hf x List.mem_cons_self m ha.1).bind fun _ _ m₁ h₁ => ?_
    have htail : Ascends m.code.size ([place x] ++ xs.map place) stop := ha
    exact (ih (fun y hy => hf y (List.mem_cons_of_mem _ hy)) (h₁.ascends htail)).mono fun _ _ m₂ h₂ => h₁.trans h₂

theorem forM_extends {α : Type} {f : α → ImageM Unit} (place : α → Placement) (patch : α → List Patch) {xs : List α}
    {stop : Nat}
    (hf : ∀ x ∈ xs, ∀ m : Image, m.code.size ≤ (place x).start →
      ∃ m', f x m = .ok () m' ∧ Extends m [place x] (patch x) m')
    (ha : Ascends m.code.size (xs.map place) stop) :
    ∃ m', xs.forM f m = .ok () m' ∧ Extends m (xs.map place) (xs.flatMap patch) m' := by
  -- Steps that cannot fail follow a plain run that does nothing.
  have hok : xs.forM (fun _ => (.ok () : Checked Unit)) = .ok () := by
    clear hf ha
    induction xs with
    | nil => rfl
    | cons x xs ih => exact ih
  have hfollows : ∀ x ∈ xs, ∀ m : Image, m.code.size ≤ (place x).start →
      Stateful.Follows (.ok ()) (fun (_ : Unit) _ m' => Extends m [place x] (patch x) m') (f x m) := by
    intro x hx m hm
    obtain ⟨m', hrun, h⟩ := hf x hx m hm
    exact .of_ok hrun rfl h
  have h := forM_follows place patch hfollows ha
  rw [hok] at h
  obtain ⟨_, m', hrun, h⟩ := h.exists_ok
  exact ⟨m', hrun, h⟩

end Steps

/-! ### Literals -/

theorem installWord_extends {lit : Literal} {m : Image} (h : m.code.size ≤ lit.offset.toNat) :
    ∃ m', (do seek .wordLiteral lit.offset; modifyCode (·.addWord lit.value)) m = .ok () m' ∧
      Extends m [lit.placement] [] m' := by
  rw [seek_bind_run h]
  exact ⟨_, rfl, rfl, by simp⟩

theorem installWords_extends {pool : LiteralPool} {offset : UInt32} {m : Image} {stop : Nat}
    (ha : Ascends m.code.size ([⟨offset, []⟩] ++ pool.placements) stop) :
    ∃ m', installWords pool offset m = .ok () m' ∧ Extends m ([⟨offset, []⟩] ++ pool.placements) [] m' := by
  obtain ⟨m₁, hseek, h₁⟩ := seek_extends .literalPool ha.1
  obtain ⟨m₂, hrun, h₂⟩ := forM_extends Literal.placement (fun _ => [])
    (fun _ _ _ hm => installWord_extends hm) (h₁.ascends ha)
  refine ⟨m₂, by rw [installWords, Stateful.bind_of_ok hseek]; exact hrun, ?_⟩
  rw [List.flatMap_eq_nil_iff.mpr fun _ _ => rfl] at h₂
  exact h₁.trans h₂

/-- The patch for a pointer that stands at its offset, if its kind of invocation is known. -/
def patchFor (kind : PatchKind) (context : MethodContext) (lit : Literal) : List Patch :=
  (InvokeKind.ofOperand? lit.tag).toList.map fun targetKind =>
    { kind, context, targetIndex := lit.value.toUInt32, targetKind, literalOffset := lit.offset }

theorem installPointers_extends {pool : LiteralPool} (kind : PatchKind) (context : MethodContext) {m : Image}
    {stop : Nat} (hkind : ∀ lit ∈ pool.literals, (InvokeKind.ofOperand? lit.tag).isSome = true)
    (ha : Ascends m.code.size pool.placements stop) :
    ∃ m', installPointers pool kind context 4 m = .ok () m' ∧
      Extends m pool.placements (pool.literals.flatMap (patchFor kind context)) m' := by
  refine forM_extends Literal.placement _ (fun lit hlit m (hm : m.code.size ≤ lit.offset.toNat) => ?_) ha
  obtain ⟨targetKind, hk⟩ := Option.isSome_iff_exists.mp (hkind lit hlit)
  have hposition : (m.code.padTo lit.offset).position = lit.offset := by
    rw [Bytes.position, Bytes.padTo_size hm, UInt32.ofNat_toNat]
  rw [seek_bind_run hm]
  simp only [hk, Stateful.get_bind_run, Stateful.modify_bind_run, hposition]
  exact ⟨_, rfl, rfl, by simp [patchFor, hk]⟩

end Image

/-! ### Switch tables -/

/-- The key of a case as its bytes in the image; packed tables hold no keys. -/
def SwitchPayload.keyBytes (p : SwitchPayload) (i : Nat) : List UInt8 :=
  match p.kind, p.key i with
  | .sparse, .ok key => littleEndian 4 key.toUInt32.toNat
  | _, _ => []

/-- The native offset of an allocated instruction. -/
def InstrList.offsetOf (l : InstrList) (id : InstrId) : UInt32 := (l.contents[id]?.map (·.offset)).getD 0

namespace SwitchTable

/-- The bytes of the cases from `i` on, which lead to these offsets. -/
def casesImage (p : SwitchPayload) (base : UInt32) : (i : Nat) → (offsets : List UInt32) → List UInt8
  | _, [] => []
  | i, offset :: rest => p.keyBytes i ++ littleEndian 4 (offset - base).toNat ++ casesImage p base (i + 1) rest

/-- The bytes of a table whose origin can be told. -/
def image (l : InstrList) (origin : BranchOrigin) (t : SwitchTable) : List UInt8 :=
  match t.origin l origin with
  | .ok base => casesImage t.payload base 0 (t.targets.toList.map l.offsetOf)
  | .error _ => []

/-- Every case has a target in the list, and a key if the table stores keys. -/
structure Resolved (l : InstrList) (t : SwitchTable) : Prop where
  count : t.targets.size = t.payload.size
  targets : ∀ target ∈ t.targets.toList, target < l.arena.size
  keys : t.payload.kind = .sparse → ∀ i < t.payload.size, ∃ key, t.payload.key i = .ok key

end SwitchTable

namespace SwitchPayload

theorem keyBytes_length (p : SwitchPayload) {i : Nat} (h : p.kind = .sparse → ∃ key, p.key i = .ok key) :
    (p.keyBytes i).length + 4 = p.caseBytes := by
  cases hk : p.kind with
  | packed => simp [keyBytes, caseBytes, hk]
  | sparse =>
    obtain ⟨key, hkey⟩ := h hk
    simp [keyBytes, caseBytes, hk, hkey]

theorem keyBytes_length_le (p : SwitchPayload) (i : Nat) : (p.keyBytes i).length + 4 ≤ p.caseBytes := by
  cases hk : p.kind with
  | packed => simp [keyBytes, caseBytes, hk]
  | sparse => cases hkey : p.key i <;> simp [keyBytes, caseBytes, hk, hkey]

end SwitchPayload

namespace SwitchTable

theorem casesImage_length_le (p : SwitchPayload) (base : UInt32) (i : Nat) (offsets : List UInt32) :
    (casesImage p base i offsets).length ≤ offsets.length * p.caseBytes := by
  induction offsets generalizing i with
  | nil => exact Nat.zero_le _
  | cons offset offsets ih =>
    have hkey := p.keyBytes_length_le i
    have htail := ih (i + 1)
    simp only [casesImage, List.length_append, littleEndian_length, List.length_cons, Nat.succ_mul]
    omega

theorem image_length_le {l : InstrList} {origin : BranchOrigin} {t : SwitchTable}
    (h : t.targets.size = t.payload.size) : (t.image l origin).length ≤ t.payload.size * t.payload.caseBytes := by
  rw [image]
  split
  · refine Nat.le_trans (casesImage_length_le _ _ _ _) (Nat.le_of_eq ?_)
    rw [List.length_map, Array.length_toList, h]
  · exact Nat.zero_le _

/-- Each case stands behind those before it. -/
theorem standsAt_case {code : Bytes} {p : SwitchPayload} {base : UInt32} {start i j : Nat} {offsets : List UInt32}
    {offset : UInt32} (hkeys : p.kind = .sparse → ∀ k < i + offsets.length, ∃ key, p.key k = .ok key)
    (h : StandsAt code start (casesImage p base i offsets)) (hj : offsets[j]? = some offset) :
    StandsAt code (start + j * p.caseBytes) (p.keyBytes (i + j) ++ littleEndian 4 (offset - base).toNat) := by
  induction offsets generalizing i j start with
  | nil => simp at hj
  | cons o offsets ih =>
    rw [casesImage] at h
    cases j with
    | zero =>
      cases hj
      simpa using h.append_left
    | succ j =>
      -- The case that is passed takes as many bytes as every other.
      have hlength := p.keyBytes_length fun hk => hkeys hk i (by simp)
      have htail := h.append_right
      rw [List.length_append, littleEndian_length, hlength] at htail
      have hstart : start + (j + 1) * p.caseBytes = start + p.caseBytes + j * p.caseBytes := by
        rw [Nat.succ_mul]
        omega
      rw [hstart, show i + (j + 1) = i + 1 + j by omega]
      exact ih (fun hk k hlt => hkeys hk k (by simp only [List.length_cons]; omega)) htail hj

end SwitchTable

namespace Image

/-- Bytes added at the end of an image, and nothing else but reports. -/
structure Adds (m : Image) (bytes : List UInt8) (m' : Image) : Prop where
  code : m'.code = m.code ++ bytes
  patches : m'.patches = m.patches

theorem installCase_adds {t : SwitchTable} {l : InstrList} (base : UInt32) {i : Nat} {target : InstrId} (m : Image)
    (ht : target < l.arena.size) (hkey : t.payload.kind = .sparse → ∃ key, t.payload.key i = .ok key) :
    ∃ m', installCase t l base i target m = .ok () m' ∧
      Adds m (t.payload.keyBytes i ++ littleEndian 4 (l.offsetOf target - base).toNat) m' := by
  obtain ⟨instr, hinstr⟩ := InstrList.getElem?_contents_of_lt ht
  have hoffset : l.offsetOf target = instr.offset := by simp [InstrList.offsetOf, hinstr]
  simp only [installCase, InstrList.get_eq_ok.mpr hinstr, Stateful.lift_ok_bind_run, SwitchPayload.keyBytes, hoffset]
  cases hk : t.payload.kind with
  | packed => exact ⟨_, rfl, by simp [Bytes.addWord], rfl⟩
  | sparse =>
    obtain ⟨key, hkey⟩ := hkey hk
    rw [hkey]
    exact ⟨_, rfl, by simp [Bytes.addWord, Bytes.append_append_list], rfl⟩

theorem installCases_adds {t : SwitchTable} {l : InstrList} (base : UInt32) {targets : List InstrId} (i : Nat)
    (m : Image) (ht : ∀ target ∈ targets, target < l.arena.size)
    (hkeys : t.payload.kind = .sparse → ∀ k < i + targets.length, ∃ key, t.payload.key k = .ok key) :
    ∃ m', installCases t l base i targets m = .ok () m' ∧
      Adds m (SwitchTable.casesImage t.payload base i (targets.map l.offsetOf)) m' := by
  induction targets generalizing i m with
  | nil => exact ⟨m, rfl, by simp [SwitchTable.casesImage], rfl⟩
  | cons target targets ih =>
    obtain ⟨m₁, hrun₁, h₁⟩ := installCase_adds base m (ht target List.mem_cons_self) fun hk => hkeys hk i (by simp)
    obtain ⟨m₂, hrun₂, h₂⟩ := ih (i + 1) m₁ (fun x hx => ht x (List.mem_cons_of_mem _ hx))
      fun hk k hlt => hkeys hk k (by simp only [List.length_cons]; omega)
    refine ⟨m₂, by rw [installCases, Stateful.bind_of_ok hrun₁]; exact hrun₂, ?_, h₂.patches.trans h₁.patches⟩
    rw [h₂.code, h₁.code, List.map_cons, SwitchTable.casesImage, Bytes.append_append_list]

/-- A table with resolved cases is installed where it belongs, unless its origin cannot be told. -/
theorem installSwitchTable_follows {t : SwitchTable} {l : InstrList} {origin : BranchOrigin} {m : Image}
    (h : t.Resolved l) (hm : m.code.size ≤ t.offset.toNat) :
    Stateful.Follows ((t.origin l origin).map fun _ => ())
      (fun _ _ m' => Extends m [⟨t.offset, t.image l origin⟩] [] m') (installSwitchTable l origin t m) := by
  rw [installSwitchTable, seek_bind_run hm]
  simp only [h.count, ne_eq, not_true_eq_false, if_false]
  cases horigin : t.origin l origin with
  | error e => rfl
  | ok base =>
    obtain ⟨m', hrun, hadds⟩ := installCases_adds base 0
      { m with
        code := m.code.padTo t.offset
        events := m.events.push (.debug ("Switch table for offset 0x" ++ Text.hex base.toNat)) }
      h.targets fun hk k hlt => h.keys hk k (by rw [← h.count]; simpa using hlt)
    refine Stateful.Follows.of_ok hrun rfl ⟨?_, ?_⟩
    · simp [hadds.code, Bytes.putAll, Bytes.put, SwitchTable.image, horigin]
    · simp [hadds.patches]

/-! ### Fill-array data -/

theorem foldl_addUnit (units : List UInt16) (code : Bytes) :
    units.foldl Bytes.addUnit code = code ++ units.flatMap fun unit => littleEndian 2 unit.toNat := by
  induction units generalizing code with
  | nil => simp
  | cons unit units ih => rw [List.foldl_cons, ih, Bytes.addUnit, List.flatMap_cons, Bytes.append_append_list]

theorem installFillArray_extends {f : FillArray} {m : Image} (h : FillArray.unitsFor f.size.toNat ≤ f.units.size)
    (hm : m.code.size ≤ f.offset.toNat) :
    ∃ m', installFillArray f m = .ok () m' ∧ Extends m [⟨f.offset, f.bytes⟩] [] m' := by
  rw [installFillArray, seek_bind_run hm]
  simp only [h, decide_true, require_true, Stateful.lift_ok_bind_run]
  refine ⟨_, rfl, ?_, by simp⟩
  simp only [← Array.foldl_toList, foldl_addUnit, Array.toList_extract, List.extract_eq_take_drop, List.drop_zero,
    Nat.sub_zero]
  rfl

end Image

/-! ### The whole -/

/-- Data that an installation can write: the kinds of pointers are known, the cases of switches are resolved, and
    fill-arrays are as long as they say. -/
structure DataSections.Installable (d : DataSections) (l : InstrList) : Prop where
  codePointers : ∀ lit ∈ d.codePointers.literals, (InvokeKind.ofOperand? lit.tag).isSome = true
  methodPointers : ∀ lit ∈ d.methodPointers.literals, (InvokeKind.ofOperand? lit.tag).isSome = true
  switchTables : ∀ t ∈ d.switchTables, t.Resolved l
  fillArrays : ∀ f ∈ d.fillArrays, FillArray.unitsFor f.size.toNat ≤ f.units.size

/-- The patches for the pointers of a method. -/
def DataSections.patches (d : DataSections) (context : MethodContext) : List Patch :=
  d.codePointers.literals.flatMap (Image.patchFor .code context) ++
    d.methodPointers.literals.flatMap (Image.patchFor .method context)

/-- The first fault that the origins of some tables meet. -/
def checkOrigins (l : InstrList) (origin : BranchOrigin) (tables : List SwitchTable) : Checked Unit :=
  tables.forM fun t => (t.origin l origin).map fun _ => ()

theorem checkOrigins_cons (l : InstrList) (origin : BranchOrigin) (t : SwitchTable) (tables : List SwitchTable) :
    checkOrigins l origin (t :: tables) =
      ((t.origin l origin).map (fun _ => ()) >>= fun _ => checkOrigins l origin tables) := rfl

theorem checkOrigins_of_ok {l : InstrList} {origin : BranchOrigin} {tables : List SwitchTable}
    (h : ∀ t ∈ tables, ∃ base, t.origin l origin = .ok base) : checkOrigins l origin tables = .ok () := by
  induction tables with
  | nil => rfl
  | cons t tables ih =>
    obtain ⟨base, hbase⟩ := h t List.mem_cons_self
    rw [checkOrigins_cons, hbase]
    exact ih fun t' ht' => h t' (List.mem_cons_of_mem _ ht')

theorem origin_of_checkOrigins {l : InstrList} {origin : BranchOrigin} {tables : List SwitchTable}
    (h : checkOrigins l origin tables = .ok ()) {t : SwitchTable} (ht : t ∈ tables) :
    ∃ base, t.origin l origin = .ok base := by
  induction tables with
  | nil => cases ht
  | cons t' tables ih =>
    rw [checkOrigins_cons] at h
    obtain ⟨_, hfirst, hrest⟩ := Checked.bind_eq_ok.mp h
    rcases List.mem_cons.mp ht with rfl | ht
    · obtain ⟨base, hbase, -⟩ := Checked.map_eq_ok.mp hfirst
      exact ⟨base, hbase⟩
    · exact ih hrest ht

namespace Image

/-- Literals are installed without fail, and what is left of the installation goes on from there. -/
theorem installData_literals {d : DataSections} {layout : DataLayout} (context : MethodContext) {l : InstrList}
    {origin : BranchOrigin} {m : Image} {rest : List Placement} {stop : Nat} (hd : d.Installable l)
    (ha : Ascends m.code.size ([⟨layout.dataOffset, []⟩] ++ d.words.placements ++
      (d.codePointers.placements ++ (d.methodPointers.placements ++ rest))) stop) :
    ∃ m', installData d layout context 4 l origin m = (do
        installSwitchTables d.switchTables l origin
        installFillArrays d.fillArrays
        seek .imageEnd layout.totalSize : ImageM Unit) m' ∧
      Extends m ([⟨layout.dataOffset, []⟩] ++ d.words.placements ++
        (d.codePointers.placements ++ d.methodPointers.placements))
        (d.patches context) m' ∧
      Ascends m'.code.size rest stop := by
  obtain ⟨m₁, hwords, h₁⟩ := installWords_extends ha.left
  have ha₁ := h₁.ascends ha
  obtain ⟨m₂, hcode, h₂⟩ := installPointers_extends .code context hd.codePointers ha₁.left
  have ha₂ := h₂.ascends ha₁
  obtain ⟨m₃, hmethod, h₃⟩ := installPointers_extends .method context hd.methodPointers ha₂.left
  refine ⟨m₃, ?_, h₁.trans (h₂.trans h₃), h₃.ascends ha₂⟩
  rw [installData, Stateful.bind_of_ok hwords, Stateful.bind_of_ok hcode, Stateful.bind_of_ok hmethod]

theorem installData_follows {d : DataSections} {layout : DataLayout} (context : MethodContext) {l : InstrList}
    {origin : BranchOrigin} {m : Image} {stop : Nat} (hd : d.Installable l)
    (ha : Ascends m.code.size (d.placements layout (SwitchTable.image l origin)) stop) :
    Stateful.Follows (checkOrigins l origin d.switchTables)
      (fun _ _ m' => Extends m (d.placements layout (SwitchTable.image l origin)) (d.patches context) m')
      (installData d layout context 4 l origin m) := by
  rw [DataSections.placements] at ha ⊢
  obtain ⟨m₃, hliterals, h₃, ha₃⟩ := installData_literals context hd ha
  have htables := forM_follows (fun t => ⟨t.offset, t.image l origin⟩) (fun _ => [])
    (fun t ht m hm => installSwitchTable_follows (hd.switchTables t ht) hm) ha₃.left
  rw [hliterals]
  -- only the tables can stop the installation; what follows them goes through
  cases hrun : installSwitchTables d.switchTables l origin m₃ with
  | error e m₄ =>
    rw [Stateful.bind_of_error hrun]
    rwa [show d.switchTables.forM (installSwitchTable l origin) m₃ = _ from hrun] at htables
  | ok _ m₄ =>
    obtain ⟨_, hcheck, h₄⟩ := htables.ok hrun
    have ha₄ := h₄.ascends ha₃
    obtain ⟨m₅, hfills, h₅⟩ := forM_extends (fun f => ⟨f.offset, f.bytes⟩) (fun _ => [])
      (fun f hf m hm => installFillArray_extends (hd.fillArrays f hf) hm) ha₄.left
    obtain ⟨m₆, hseek, h₆⟩ := seek_extends .imageEnd (h₅.ascends ha₄).1
    have hall := h₃.trans (h₄.trans (h₅.trans h₆))
    rw [Stateful.bind_of_ok hrun, installFillArrays, Stateful.bind_of_ok hfills]
    refine .of_ok hseek hcheck ⟨?_, ?_⟩
    · simpa only [List.append_assoc] using hall.code
    · rw [hall.patches]
      simp [List.flatMap_eq_nil_iff.mpr]

end Image

end MethodAssembler
