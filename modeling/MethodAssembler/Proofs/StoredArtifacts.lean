import Mathlib.Data.List.Dedup
import MethodAssembler.CommandLine.Run
import MethodAssembler.Proofs.FileTree

/-! # Stored artifacts

What a run over several files stores. Each file that compiles is stored at a path that its method's name gives, in the
order of the files, so of two methods with one name the later one's artifact replaces the other's. Every artifact is
there at the end, in as many files as the run counts methods, exactly if no two of them have the same name. -/

namespace MethodAssembler.CommandLine

/-! ### Results of a tree -/

/-- What compiling a file of a tree gives. -/
def FileResult.of (t : FileTree) (config : Config) (file : String) : FileResult :=
  match t.read? file with
  | none => { file, outcome := .error (.refused .fileAccess) }
  | some text =>
    match Description.parse text with
    | .error e => { file, outcome := .error (.refused e) }
    | .ok d =>
      { file, description := some d, outcome := (d.compile config).outcome, patches := (d.compile config).patches.size }

/-- An artifact, its path, and the location that the path leads to. -/
structure Stored where
  artifact : Artifact
  path : String
  location : Location

/-- What is stored of a result, unless it has no artifact, or the artifact no path that can be written. -/
def FileResult.stored? (t : FileTree) (outDirectory : String) (x : FileResult) : Option Stored :=
  match x.outcome, x.description with
  | .ok out, some d =>
    match Artifact.path outDirectory d.name with
    | .ok path => (t.place? path).map fun l => ⟨artifactOf d out, path, l⟩
    | .error _ => none
  | _, _ => none

/-- All that is stored, in order. -/
def storedOf (t : FileTree) (config : Config) (outDirectory : String) (files : List String) : List Stored :=
  (files.map (FileResult.of t config)).filterMap (·.stored? t outDirectory)

variable {t t' : FileTree} {config : Config} {outDirectory : String} {files : List String} {r r' r'' : Record}
  {x : FileResult} {s s' : Stored} {ss ss' : List Stored} {l : Location}

theorem FileResult.of_described {file : String} {d : Description}
    (h : (t.read? file).map Description.parse = some (.ok d)) :
    FileResult.of t config file =
      { file, description := some d, outcome := (d.compile config).outcome,
        patches := (d.compile config).patches.size } := by
  obtain ⟨text, hread, hparse⟩ := Option.map_eq_some_iff.mp h
  simp only [FileResult.of, hread, hparse]

theorem FileResult.stored?_described {file path : String} {d : Description} {out : MethodOutput}
    (h : (t.read? file).map Description.parse = some (.ok d)) (hout : (d.compile config).outcome = .ok out)
    (hpath : Artifact.path outDirectory d.name = .ok path) (hplace : t.place? path = some l) :
    (FileResult.of t config file).stored? t outDirectory = some ⟨artifactOf d out, path, l⟩ := by
  simp only [of_described h, stored?, hout, hpath, hplace, Option.map_some]

theorem FileResult.stored?_of_directories (h : t'.directories = t.directories) :
    x.stored? t' outDirectory = x.stored? t outDirectory := by
  rw [stored?, stored?]
  split
  · split
    · rw [FileTree.place?_of_directories h]
    · rfl
  · rfl

/-! ### The recording host -/

theorem run_bind {α β : Type} (m : StateM Record α) (f : α → StateM Record β) (r : Record) :
    (m >>= f).run r = (f (m.run r).1).run (m.run r).2 := rfl

theorem run_pure {α : Type} (a : α) (r : Record) : (pure a : StateM Record α).run r = (a, r) := rfl

theorem run_readText (path : String) (r : Record) :
    (Host.recording.readText path).run r = (r.tree.read? path, r) := rfl

theorem run_writeText (path text : String) (r : Record) :
    (Host.recording.writeText path text).run r =
      match r.tree.place? path with
      | some l => (true, { r with tree := r.tree.putText l text })
      | none => (false, r) := by
  have hwrite := FileTree.write?_eq r.tree path text
  simp only [Host.recording, StateT.run]
  cases hplace : r.tree.place? path <;> simp [hwrite, hplace]

theorem run_forM_report (es : Array Event) (r : Record) :
    ∃ notices, (es.forM Host.recording.report).run r = ((), { r with notices }) := by
  obtain ⟨es⟩ := es
  rw [List.forM_toArray' es _ rfl]
  induction es generalizing r with
  | nil => exact ⟨r.notices, rfl⟩
  | cons e es ih => exact ih { r with notices := r.notices.push (.event e) }

theorem run_forM_print (lines : List String) (r : Record) :
    (lines.forM Host.recording.print).run r = ((), { r with output := r.output ++ lines.toArray }) := by
  induction lines generalizing r with
  | nil =>
    rw [show r.output ++ [].toArray = r.output by simp]
    rfl
  | cons line lines ih =>
    rw [show r.output ++ (line :: lines).toArray = r.output.push line ++ lines.toArray by simp]
    exact ih { r with output := r.output.push line }

/-! ### Compiling -/

/-- Compiling a file writes notices only. -/
theorem run_compileFile (config : Config) (verbose : Bool) (file : String) (r : Record) :
    ∃ notices, (compileFile Host.recording config verbose file).run r =
      (FileResult.of r.tree config file, { r with notices }) := by
  simp only [compileFile, load, FileResult.of, run_bind, run_readText]
  cases hread : r.tree.read? file with
  | none => exact ⟨r.notices, rfl⟩
  | some text =>
    cases hparse : Description.parse text with
    | error e => exact ⟨r.notices, by simp only [run_pure, hparse]⟩
    | ok d =>
      obtain ⟨notices, hreport⟩ :=
        run_forM_report ((d.compile config).events.filter fun e => verbose || e.level != .debug) r
      exact ⟨notices, by simp only [run_pure, hparse, run_bind, hreport]⟩

theorem run_compileFiles (config : Config) (verbose : Bool) (files : List String) (r : Record) :
    ∃ notices, (files.mapM (compileFile Host.recording config verbose)).run r =
      (files.map (FileResult.of r.tree config), { r with notices }) := by
  induction files generalizing r with
  | nil => exact ⟨r.notices, rfl⟩
  | cons file files ih =>
    obtain ⟨first, hfirst⟩ := run_compileFile config verbose file r
    obtain ⟨notices, hrest⟩ := ih { r with notices := first }
    exact ⟨notices, by simp only [List.mapM_cons, run_bind, hfirst, hrest, run_pure, List.map_cons]⟩

/-! ### Storing -/

/-- A tree after artifacts were stored, one after the other. -/
def putAll (t : FileTree) (ss : List Stored) : FileTree :=
  ss.foldl (fun t s => t.putText s.location s.artifact.document) t

theorem directories_putAll (t : FileTree) (ss : List Stored) : (putAll t ss).directories = t.directories := by
  induction ss generalizing t with
  | nil => rfl
  | cons s ss ih => exact ih _

theorem putAll_cons (t : FileTree) (s : Stored) (ss : List Stored) :
    putAll t (s :: ss) = putAll (t.putText s.location s.artifact.document) ss := rfl

/-- Where several artifacts were stored, the last of them stands. -/
theorem textAt?_putAll (t : FileTree) (ss : List Stored) (l : Location) :
    (putAll t ss).textAt? l =
      ((ss.filter (·.location = l)).getLast?.map (·.artifact.document)).or (t.textAt? l) := by
  induction ss generalizing t with
  | nil => rfl
  | cons s ss ih =>
    rw [putAll_cons, ih, FileTree.textAt?_putText, List.filter_cons]
    by_cases hl : l = s.location
    · subst hl
      rw [if_pos rfl, if_pos (by simp), List.getLast?_cons]
      cases (ss.filter (·.location = s.location)).getLast? <;> rfl
    · rw [if_neg hl, if_neg (by simpa using Ne.symm hl)]

/-- A record goes on with artifacts: their texts are put into the tree, and what is said about them is printed. -/
structure Wrote (r : Record) (ss : List Stored) (r' : Record) : Prop where
  tree : r'.tree = putAll r.tree ss
  output : r'.output.toList = r.output.toList ++ ss.flatMap fun s => storedLines s.artifact s.path

theorem Wrote.append (h : Wrote r ss r') (h' : Wrote r' ss' r'') : Wrote r (ss ++ ss') r'' where
  tree := by rw [h'.tree, h.tree, putAll, putAll, putAll, List.foldl_append]
  output := by rw [h'.output, h.output, List.flatMap_append, List.append_assoc]

theorem Wrote.complained (message : String) (r : Record) :
    Wrote r [] { r with notices := r.notices.push (.error message) } where
  tree := rfl
  output := by simp

/-- Storing a result writes its artifact, if it has one that can be stored, and succeeds exactly then. -/
theorem run_settle (outDirectory : String) (x : FileResult) (r : Record) :
    ∃ r', (settle Host.recording outDirectory x).run r = ((x.stored? r.tree outDirectory).isSome, r') ∧
      Wrote r (x.stored? r.tree outDirectory).toList r' := by
  obtain ⟨file, description, outcome, patches⟩ := x
  match outcome, description with
  | .error (.refused e), _ => exact ⟨_, rfl, .complained _ r⟩
  | .error .trap, _ => exact ⟨_, rfl, .complained _ r⟩
  | .ok out, none => exact ⟨_, rfl, .complained _ r⟩
  | .ok out, some d =>
    simp only [settle, store, FileResult.stored?, show (artifactOf d out).name = d.name from rfl]
    cases Artifact.path outDirectory d.name with
    | error e => exact ⟨_, rfl, .complained _ r⟩
    | ok path =>
      simp only [run_bind, run_writeText]
      cases r.tree.place? path with
      | none => exact ⟨_, rfl, .complained _ r⟩
      | some l =>
        refine ⟨_, by simp only [Option.map_some, if_true, run_bind, run_forM_print]; rfl, ⟨rfl, ?_⟩⟩
        simp

theorem run_settleAll (outDirectory : String) (xs : List FileResult) (r : Record) :
    ∃ r', (xs.mapM (settle Host.recording outDirectory)).run r =
        (xs.map fun x => (x.stored? r.tree outDirectory).isSome, r') ∧
      Wrote r (xs.filterMap (·.stored? r.tree outDirectory)) r' := by
  induction xs generalizing r with
  | nil => exact ⟨r, rfl, rfl, by simp⟩
  | cons x xs ih =>
    obtain ⟨r₁, hfirst, hwrote⟩ := run_settle outDirectory x r
    obtain ⟨r₂, hrest, hwrote'⟩ := ih r₁
    have hsame (x : FileResult) : x.stored? r₁.tree outDirectory = x.stored? r.tree outDirectory :=
      FileResult.stored?_of_directories (by rw [hwrote.tree, directories_putAll])
    simp only [hsame] at hrest hwrote'
    refine ⟨r₂, by simp only [List.mapM_cons, run_bind, hfirst, hrest, run_pure, List.map_cons], ?_⟩
    rw [List.filterMap_cons]
    cases hx : x.stored? r.tree outDirectory with
    | none => exact (hx ▸ hwrote).append hwrote'
    | some s => exact (hx ▸ hwrote).append hwrote'

/-! ### Documents -/

/-- The document of an artifact starts with the name and the number of its method. -/
theorem document_eq (a : Artifact) : ∃ rest, a.document =
    ("\x7b" ++ Json.newLine 1 ++ Json.quote "name" ++ ": " ++ Json.quote a.name ++ "," ++ Json.newLine 1 ++
      Json.quote "method_idx" ++ ": ") ++ (toString a.methodIndex.toNat ++ ("," ++ rest)) := by
  have hfields : a.document = "\x7b" ++ Json.newLine 1 ++ ("," ++ Json.newLine 1).intercalate
      ((Json.quote "name" ++ ": " ++ Json.quote a.name) ::
        (Json.quote "method_idx" ++ ": " ++ Json.numberText { whole := a.methodIndex.toNat }) ::
        (Json.quote "compiled" ++ ": " ++ Json.prettyAt 1 a.compiled.toJson) ::
        Json.prettyFields 1 [(some "patches", .array (a.patches.map (·.toJson))),
          (some "diagnostics", .array (a.diagnostics.map (·.toJson)))]) ++ Json.newLine 0 ++ "\x7d" := rfl
  have hnumber : Json.numberText { whole := a.methodIndex.toNat } = toString a.methodIndex.toNat := by
    simp [Json.numberText]
  rw [hfields, hnumber, String.intercalate_cons_cons, String.intercalate_cons_cons]
  simp only [String.append_assoc]
  exact ⟨_, rfl⟩

/-- A document tells the number of its method. -/
theorem methodIndex_of_document {a b : Artifact} (hname : a.name = b.name) (h : a.document = b.document) :
    a.methodIndex = b.methodIndex := by
  obtain ⟨rest, ha⟩ := document_eq a
  obtain ⟨rest', hb⟩ := document_eq b
  rw [ha, hb, hname] at h
  have htext := congrArg String.toList ((String.append_right_inj _).mp h)
  have hdigits (n : Nat) (rest : String) :
      (toString n ++ ("," ++ rest)).toList.takeWhile Char.isDigit = Nat.toDigits 10 n := by
    rw [String.toList_append, Nat.toString_eq_repr, Nat.toList_repr, List.takeWhile_append_of_pos fun c hc =>
      Nat.isDigit_of_mem_toDigits (by decide) (by decide) hc]
    simp
  have hsame := congrArg (List.takeWhile Char.isDigit) htext
  rw [hdigits, hdigits] at hsame
  have hnumber := congrArg (Nat.ofDigitChars 10 · 0) hsame
  simp only [Nat.ofDigitChars_ten_toDigits] at hnumber
  exact UInt32.toNat_inj.mp hnumber

/-! ### Where artifacts stand -/

/-- An artifact stands where its name says. -/
structure Stored.In (t : FileTree) (outDirectory : String) (s : Stored) : Prop where
  path : Artifact.path outDirectory s.artifact.name = .ok s.path
  place : t.place? s.path = some s.location

theorem FileResult.in_of_stored (h : x.stored? t outDirectory = some s) : s.In t outDirectory := by
  rw [stored?] at h
  split at h
  · split at h
    · rename_i hpath
      obtain ⟨l, hplace, rfl⟩ := Option.map_eq_some_iff.mp h
      exact ⟨hpath, hplace⟩
    · cases h
  · cases h

theorem in_of_mem (hs : s ∈ storedOf t config outDirectory files) : s.In t outDirectory := by
  obtain ⟨x, -, hx⟩ := List.mem_filterMap.mp hs
  exact FileResult.in_of_stored hx

namespace Stored.In

/-- The location is the file named after the method, in the output directory. -/
theorem location_eq (h : s.In t outDirectory) :
    ∃ base, t.follow (FileTree.startOf outDirectory) (FileTree.parts outDirectory) = .ok base ∧
      s.location = base.push (s.artifact.name ++ ".compiled.json") := by
  obtain ⟨hplain, hpath⟩ := Artifact.path_eq_ok.mp h.path
  have hslash : '/' ∉ (s.artifact.name ++ ".compiled.json").toList := by
    simpa using Artifact.not_mem_of_isPlainName hplain
  have hne {w : String} (hw : 'j' ∉ w.toList) : s.artifact.name ++ ".compiled.json" ≠ w := by
    rintro rfl
    simp at hw
  have hlocate := FileTree.locate_of_place h.place
  rw [← hpath] at hlocate
  obtain ⟨base, hbase, hstep⟩ := FileTree.locate_joinPath hslash (hne (by simp)) hlocate
  exact ⟨base, hbase, FileTree.step_eq_push hstep (hne (by simp)) (hne (by simp))⟩

/-- Two artifacts stand at one location exactly if their methods have one name. -/
theorem location_eq_iff (h : s.In t outDirectory) (h' : s'.In t outDirectory) :
    s.location = s'.location ↔ s.artifact.name = s'.artifact.name := by
  constructor
  · intro heq
    obtain ⟨base, hbase, hl⟩ := h.location_eq
    obtain ⟨base', hbase', hl'⟩ := h'.location_eq
    obtain rfl : base = base' := Except.ok.inj (hbase.symm.trans hbase')
    rw [hl, hl'] at heq
    exact (String.append_left_inj _).mp (Array.push_eq_push.mp heq).1
  · intro hname
    have hpath : s.path = s'.path := Except.ok.inj (h.path.symm.trans (hname ▸ h'.path))
    exact Option.some.inj (h.place.symm.trans (hpath ▸ h'.place))

/-- Reading the path of an artifact gives the text at its location, also after other artifacts were stored. -/
theorem read?_putAll (h : s.In t outDirectory) (ss : List Stored) :
    (putAll t ss).read? s.path = (putAll t ss).textAt? s.location := by
  have hlocate : (putAll t ss).locate s.path = .ok s.location :=
    FileTree.locate_of_directories (directories_putAll t ss) (FileTree.locate_of_place h.place)
  rw [FileTree.read?, hlocate]

end Stored.In

theorem nodup_locations_iff (h : ∀ s ∈ ss, s.In t outDirectory) :
    (ss.map (·.location)).Nodup ↔ (ss.map (·.artifact.name)).Nodup := by
  rw [List.Nodup, List.Nodup, List.pairwise_map, List.pairwise_map]
  exact List.Pairwise.iff_of_mem fun hs hs' => not_congr ((h _ hs).location_eq_iff (h _ hs'))

/-- Artifacts at locations of their own all stand at the end. -/
theorem textAt?_putAll_of_nodup (h : (ss.map (·.location)).Nodup) (hs : s ∈ ss) :
    (putAll t ss).textAt? s.location = some s.artifact.document := by
  induction ss generalizing t with
  | nil => cases hs
  | cons first ss ih =>
    obtain ⟨hnew, hrest⟩ := List.nodup_cons.mp h
    rcases List.mem_cons.mp hs with rfl | hs
    · have hlater : ss.filter (·.location = s.location) = [] := by
        refine List.filter_eq_nil_iff.mpr fun s' hs' => ?_
        simpa using fun heq => hnew (List.mem_map.mpr ⟨s', hs', heq⟩)
      rw [putAll_cons, textAt?_putAll, hlater, FileTree.textAt?_putText, if_pos rfl]
      rfl
    · exact ih hrest hs

/-! ### Assembling -/

/-- What is printed at the end. -/
def summary (methods patches : Nat) : String :=
  toString methods ++ " methods compiled, " ++ toString patches ++ " patches recorded"

/-- A run over several files stores what there is to store, prints what it stored and how much, and succeeds if every
    file was stored. -/
theorem run_assembleAll (config : Config) (o : AssembleOptions) (outDirectory : String) (r : Record)
    (h : storedOf r.tree config outDirectory o.files = ss) :
    ∃ r', (assembleAll Host.recording config o outDirectory).run r = (if ss.length = o.files.length then 0 else 1, r') ∧
      r'.tree = putAll r.tree ss ∧
      r'.output.toList = r.output.toList ++ ss.flatMap (fun s => storedLines s.artifact s.path) ++
        [summary ss.length ((o.files.map (FileResult.of r.tree config)).map (·.patches)).sum] := by
  obtain ⟨notices, hcompile⟩ := run_compileFiles config o.verbose o.files r
  obtain ⟨r', hsettle, htree, houtput⟩ :=
    run_settleAll outDirectory (o.files.map (FileResult.of r.tree config)) { r with notices }
  simp only [show ((o.files.map (FileResult.of r.tree config)).filterMap (·.stored? r.tree outDirectory)) = ss from h]
    at htree houtput
  have hcount : ((o.files.map (FileResult.of r.tree config)).map fun x =>
      (x.stored? r.tree outDirectory).isSome).countP id =
      ss.length := by
    simp [← h, storedOf, List.length_filterMap_eq_countP, List.countP_map, Function.comp_def]
  -- Every file was stored exactly if as many were stored as there are files.
  have hall : ((o.files.map (FileResult.of r.tree config)).map fun x =>
      (x.stored? r.tree outDirectory).isSome).all id = true ↔
      ss.length = o.files.length := by
    rw [← hcount, List.all_eq_true, ← List.countP_eq_length, List.length_map, List.length_map]
  refine ⟨{ r' with
    output := r'.output.push (summary ss.length ((o.files.map (FileResult.of r.tree config)).map (·.patches)).sum) },
    ?_, htree, ?_⟩
  · simp only [assembleAll, run_bind, hcompile, hsettle, hcount, hall]
    rfl
  · rw [Array.toList_push, houtput]

/-- A run over several files keeps every artifact exactly if the stored methods have names of their own. The last artifact
    stored at a location is what stands there; elsewhere nothing changes. -/
theorem assembleAll_keeps_artifacts_iff (config : Config) (o : AssembleOptions) (outDirectory : String) (r : Record) :
    ∃ stored after, stored = storedOf r.tree config outDirectory o.files ∧
      (assembleAll Host.recording config o outDirectory).run r =
        (if stored.length = o.files.length then 0 else 1, after) ∧
      after.output.toList = r.output.toList ++ stored.flatMap (fun s => storedLines s.artifact s.path) ++
        [summary stored.length ((o.files.map (FileResult.of r.tree config)).map (·.patches)).sum] ∧
      (∀ l, after.tree.textAt? l =
        ((stored.filter (·.location = l)).getLast?.map (·.artifact.document)).or (r.tree.textAt? l)) ∧
      ((∀ s ∈ stored, after.tree.read? s.path = some s.artifact.document) ∧
          (stored.map (·.location)).dedup.length = stored.length ↔
        (stored.map (·.artifact.name)).Nodup) := by
  obtain ⟨after, hrun, htree, houtput⟩ := run_assembleAll config o outDirectory r rfl
  refine ⟨_, after, rfl, hrun, houtput, fun l => by rw [htree, textAt?_putAll], ?_⟩
  have hin : ∀ s ∈ storedOf r.tree config outDirectory o.files, s.In r.tree outDirectory := fun s hs => in_of_mem hs
  rw [← nodup_locations_iff hin]
  constructor
  · rintro ⟨-, hlength⟩
    exact List.dedup_eq_self.mp ((List.dedup_sublist _).eq_of_length (by rw [hlength, List.length_map]))
  · intro hnodup
    refine ⟨fun s hs => ?_, by rw [List.dedup_eq_self.mpr hnodup, List.length_map]⟩
    rw [htree, (hin s hs).read?_putAll, textAt?_putAll_of_nodup hnodup hs]

/-! ### Methods of one name -/

/-- A method `m`. -/
def namesake (index : UInt32) (items : List StreamItem) : Description :=
  { name := "m", context := { methodIndex := index }, instructions := items }

/-- Files that describe two methods `m`, with numbers and code of their own. -/
def namesakes : FileTree :=
  (FileTree.fresh.withFile "a.json" "\x7b\"name\":\"m\",\"method_idx\":1,\"instructions\":[]\x7d").withFile "b.json"
    "\x7b\"name\":\"m\",\"method_idx\":2,\"instructions\":[\x7b\"op\":\"op\",\"opcode\":4,\"dex_pc\":0\x7d]\x7d"

/-- Both are counted as compiled, but the artifact of the first is lost. -/
theorem assembleAll_replaces_namesake : ∃ first second after,
    storedOf namesakes {} "." ["a.json", "b.json"] = [first, second] ∧
      (assembleAll Host.recording {} { files := ["a.json", "b.json"] } ".").run { tree := namesakes } = (0, after) ∧
      after.output.toList.getLast? = some "2 methods compiled, 0 patches recorded" ∧
      after.tree.read? first.path = some second.artifact.document ∧
      first.artifact.document ≠ second.artifact.document := by
  obtain ⟨out₁, hout₁⟩ : ∃ out, ((namesake 1 []).compile {}).outcome = .ok out := Checked.exists_of_isOk (by decide +kernel)
  obtain ⟨out₂, hout₂⟩ : ∃ out, ((namesake 2 [.op 4 0 [] false]).compile {}).outcome = .ok out :=
    Checked.exists_of_isOk (by decide +kernel)
  have hparse₁ : (namesakes.read? "a.json").map Description.parse = some (.ok (namesake 1 [])) := by decide +kernel
  have hparse₂ : (namesakes.read? "b.json").map Description.parse = some (.ok (namesake 2 [.op 4 0 [] false])) := by
    decide +kernel
  have hpath : Artifact.path "." "m" = .ok "./m.compiled.json" :=
    Artifact.path_eq_ok.mpr ⟨by simp [Artifact.isPlainName, String.all_bool_eq], by decide +kernel⟩
  have hplace : namesakes.place? "./m.compiled.json" = some #["tmp", "", "m.compiled.json"] := by decide +kernel
  have hstored : storedOf namesakes {} "." ["a.json", "b.json"] = _ :: _ :: [] :=
    (List.filterMap_cons_some (FileResult.stored?_described hparse₁ hout₁ hpath hplace)).trans
      (congrArg _ (List.filterMap_cons_some (FileResult.stored?_described hparse₂ hout₂ hpath hplace)))
  obtain ⟨after, hrun, htree, houtput⟩ :=
    run_assembleAll {} { files := ["a.json", "b.json"] } "." { tree := namesakes } hstored
  have hin := in_of_mem (hstored ▸ List.mem_cons_self)
  have hpatches : ((["a.json", "b.json"].map (FileResult.of namesakes {})).map (·.patches)).sum = 0 := by
    simp only [List.map_cons, FileResult.of_described hparse₁, FileResult.of_described hparse₂]
    decide +kernel
  refine ⟨_, _, after, hstored, hrun, ?_, ?_, fun hsame => ?_⟩
  · rw [houtput, List.getLast?_concat, hpatches]
    exact congrArg some (show summary 2 0 = _ by decide +kernel)
  · rw [htree, hin.read?_putAll, textAt?_putAll]
    rfl
  · have hindex : (1 : UInt32) = 2 := methodIndex_of_document (by rfl) hsame
    exact absurd hindex (by decide)

end MethodAssembler.CommandLine
