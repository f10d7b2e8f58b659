import MipsAssembler.Proofs.Simulation
/-!
# Sources that read the same

A run sees of its source what `SourceLine.ofBytes` makes of each line. If this is the same for two sources, then runs
that differ in their source alone give the same answer and end the same (`assemble_of_same_lines`), whatever else the
directory holds and wherever the names lead. Only a source that neither run wrote to tells their files apart
(`Variant`).
-/

namespace MipsAssembler

namespace Directory

variable {path other : Path} {source source' content : List UInt8} {d d' : Directory} {name : String}

/-- The directories hold the same but for one path: where the first still has its source, the second has the other. -/
structure Variant (path : Path) (source source' : List UInt8) (d d' : Directory) : Prop where
  folders : d.folders = d'.folders
  content : ∀ other, d.find? other = d'.find? other ∨
    other = path ∧ d.find? other = some source ∧ d'.find? other = some source'

theorem find_put_congr (h : other ≠ path → d.find? other = d'.find? other) :
    (d.put path content).find? other = (d'.put path content).find? other := by
  by_cases hp : other = path
  · rw [hp, find_put_same, find_put_same]
  · rw [find_put_other d content hp, find_put_other d' content hp, h hp]

theorem variant_put (d : Directory) (path : Path) (source source' : List UInt8) :
    Variant path source source' (d.put path source) (d.put path source') where
  folders := rfl
  content other := by
    by_cases hp : other = path
    · rw [hp, find_put_same, find_put_same]
      exact .inr ⟨rfl, rfl, rfl⟩
    · rw [find_put_other d source hp, find_put_other d source' hp]
      exact .inl rfl

namespace Variant

theorem put (h : Variant path source source' d d') (other : Path) (content : List UInt8) :
    Variant path source source' (d.put other content) (d'.put other content) where
  folders := h.folders
  content x := by
    by_cases hx : x = other
    · rw [hx, find_put_same, find_put_same]
      exact .inl rfl
    · rw [find_put_other d content hx, find_put_other d' content hx]
      exact h.content x

/-- Content that is the same can be written over. -/
theorem overwrite (h : Variant path source source' d d') (hsame : d.find? other = d'.find? other)
    (bytes : List UInt8) : Variant path source source' (d.overwrite other bytes) (d'.overwrite other bytes) := by
  unfold Directory.overwrite
  rw [hsame]
  exact h.put other _

/-- A walk asks only whether there is a file. -/
theorem walk (h : Variant path source source' d d') (here : Path) (steps : List String) :
    d.walk here steps = d'.walk here steps := by
  induction steps generalizing here with
  | nil => rfl
  | cons step rest ih =>
    unfold Directory.walk
    dsimp only
    rw [h.folders, ih]
    rcases h.content (Path.follow here step) with hsame | ⟨-, hd, hd'⟩
    · rw [hsame]
    · rw [hd, hd']
      cases rest <;> rfl

theorem read (h : Variant path source source' d d') (name : String) :
    d.read name = d'.read name ∨ pathOf name = path ∧ d.find? path ≠ d'.find? path ∧
      d.read name = .ok source ∧ d'.read name = .ok source' := by
  unfold Directory.read
  rw [h.walk]
  cases nameError? name with
  | some e => exact .inl rfl
  | none =>
    dsimp only
    cases hw : d'.walk [] (steps name) with
    | error e => exact .inl rfl
    | ok place =>
      cases place with
      | folder => exact .inl rfl
      | vacant place => exact .inl rfl
      | file place =>
        have hplace : place = pathOf name := walk_path (.inl hw)
        dsimp only
        split
        · exact .inl rfl
        · by_cases hsame : d.find? place = d'.find? place
          · rw [hsame]
            exact .inl rfl
          · obtain ⟨rfl, hd, hd'⟩ := (h.content place).resolve_left hsame
            rw [hd, hd']
            exact .inr ⟨hplace.symm, by rwa [hd, hd'] at hsame, rfl, rfl⟩

theorem create (h : Variant path source source' d d') (name : String) :
    (∃ e, d.create name = .error e ∧ d'.create name = .error e) ∨
      ∃ opened, d.create name = .ok (d.put opened [], opened) ∧ d'.create name = .ok (d'.put opened [], opened) := by
  unfold Directory.create
  rw [h.walk, h.walk]
  split
  · exact .inl ⟨_, rfl, rfl⟩
  · split
    · split <;> exact .inl ⟨_, rfl, rfl⟩
    · split
      · exact .inl ⟨_, rfl, rfl⟩
      · exact .inl ⟨_, rfl, rfl⟩
      · exact .inr ⟨_, rfl, rfl⟩
      · exact .inr ⟨_, rfl, rfl⟩

theorem sourceLines (h : Variant path source source' d d')
    (hlines : (Utf8.lines source).map SourceLine.ofBytes = (Utf8.lines source').map SourceLine.ofBytes)
    (name : String) : d.sourceLines name = d'.sourceLines name := by
  unfold Directory.sourceLines
  rcases h.read name with hsame | ⟨-, -, hd, hd'⟩
  · rw [hsame]
  · rw [hd, hd']
    exact congrArg Except.ok hlines

end Variant

end Directory

namespace Assembler

open Directory

variable {path : Path} {source source' : List UInt8} {written : List Path} {a b : Assembler}

/-- The runs differ in their files alone, and there not in what they opened for writing. -/
structure Beside (path : Path) (source source' : List UInt8) (written : List Path) (a b : Assembler) : Prop where
  rest : b = { a with files := b.files }
  files : Variant path source source' a.files b.files
  settled : ∀ other ∈ written, a.files.find? other = b.files.find? other

namespace Beside

theorem withFiles (h : Beside path source source' written a b) (d : Directory) :
    ({ b with files := d } : Assembler) = { a with files := d } :=
  (congrArg (fun x : Assembler => { x with files := d }) h.rest :)

/-- A change that has nothing to do with the files. -/
theorem change (h : Beside path source source' written a b) (f : Assembler → Assembler)
    (hf : ∀ (x : Assembler) (d : Directory), f { x with files := d } = { f x with files := d }) :
    Beside path source source' written (f a) (f b) := by
  have hfiles : ∀ x, (f x).files = x.files := fun x => (congrArg Assembler.files (hf x x.files) :)
  refine ⟨?_, ?_, ?_⟩
  · calc f b = f { a with files := b.files } := congrArg f h.rest
      _ = { f a with files := b.files } := hf a b.files
      _ = { f a with files := (f b).files } := by rw [hfiles]
  · rw [hfiles, hfiles]
    exact h.files
  · rw [hfiles, hfiles]
    exact h.settled

theorem create (h : Beside path source source' written a b) (name : String) :
    (∃ e, a.files.create name = .error e ∧ b.files.create name = .error e) ∨
      ∃ d d' opened, a.files.create name = .ok (d, opened) ∧ b.files.create name = .ok (d', opened) ∧
        Beside path source source' (opened :: written) { a with files := d } { b with files := d' } := by
  obtain hfails | ⟨opened, ha, hb⟩ := h.files.create name
  · exact .inl hfails
  · refine .inr ⟨_, _, opened, ha, hb, h.withFiles _, h.files.put opened [], fun other hother => ?_⟩
    apply find_put_congr
    intro hne
    exact h.settled other ((List.mem_cons.1 hother).resolve_left hne)

theorem overwrite (h : Beside path source source' written a b) (opened : Path) (hopened : opened ∈ written)
    (bytes : List UInt8) : Beside path source source' written
      { a with files := a.files.overwrite opened bytes } { b with files := b.files.overwrite opened bytes } := by
  have hsame := h.settled opened hopened
  refine ⟨h.withFiles _, h.files.overwrite hsame bytes, fun other hother => ?_⟩
  -- What stays behind the new bytes is the same, since the old content is.
  unfold Directory.overwrite
  dsimp only
  rw [hsame]
  apply find_put_congr
  intro _
  exact h.settled other hother

/-- Sources with the same lines are not told apart. -/
theorem simulation
    (hlines : (Utf8.lines source).map SourceLine.ofBytes = (Utf8.lines source').map SourceLine.ofBytes) :
    Simulation (Beside path source source') where
  sourceName h := (congrArg Assembler.sourceName h.rest :).symm
  listingName h := (congrArg Assembler.listingName h.rest :).symm
  binaryName h := (congrArg Assembler.binaryName h.rest :).symm
  symbols h := (congrArg Assembler.symbols h.rest :).symm
  progress h := (congrArg Assembler.progress h.rest :).symm
  output h := (congrArg Assembler.output h.rest :).symm
  errors h := (congrArg Assembler.errors h.rest :).symm
  sourceLines h := h.files.sourceLines hlines _
  print h t := h.change (Assembler.print · t) fun _ _ => rfl
  note h t := h.change (Assembler.note · t) fun x d => by
    unfold Assembler.note
    dsimp only
    split <;> rfl
  complain h t := h.change (Assembler.complain · t) fun _ _ => rfl
  record h e := h.change (Assembler.record · e) fun _ _ => rfl
  setSymbols h t := h.change (fun x => { x with symbols := t }) fun _ _ => rfl
  setProgress h p := h.change (fun x => { x with progress := p }) fun _ _ => rfl
  setOutput h o := h.change (fun x => { x with output := o }) fun _ _ => rfl
  create := create
  overwrite := overwrite

end Beside

theorem assemble_of_same_lines
    (hlines : (Utf8.lines source).map SourceLine.ofBytes = (Utf8.lines source').map SourceLine.ofBytes)
    (files : Directory) (path : Path) (sourceName : String) (listingName : Option String) (binaryName : String)
    (debug : Bool) :
    let start := new (files.put path source) sourceName listingName binaryName debug
    let start' := new (files.put path source') sourceName listingName binaryName debug
    let run := start.assemble
    let run' := start'.assemble
    run.2 = run'.2 ∧ run'.1 = { run.1 with files := run'.1.files } ∧
      ∀ name, run.1.files.read name = run'.1.files.read name ∨
        pathOf name = path ∧ (run.1.output = none ∨ path ∉ start.outputPaths) ∧
          run.1.files.read name = .ok source ∧ run'.1.files.read name = .ok source' := by
  intro start start' run run'
  have hstart : Beside path source source' [] start start' :=
    ⟨rfl, variant_put files path source source', List.forall_mem_nil _⟩
  have h := (Beside.simulation hlines).assemble hstart
  obtain ⟨written, hend, hreached⟩ := h.related
  refine ⟨h.answer, hend.rest, fun name => ?_⟩
  obtain hsame | ⟨hname, hdiffer, hread, hread'⟩ := hend.files.read name
  · exact .inl hsame
  · refine .inr ⟨hname, ?_, hread, hread'⟩
    rcases hreached with hnone | hopened
    · exact .inl hnone
    · exact .inr fun hmem => hdiffer (hend.settled path (hopened hmem))

end Assembler

end MipsAssembler
