import MipsAssembler.Directory
/-!
# Files keep apart

A name leads to one path, `pathOf`, whatever the directory holds. `create` and `put` change the file at their path
and no other, so a name that could be read still can be, with its old content unless it leads to that path
(`read_put_other`), and a file that was created reads as what was put there last (`read_put_create`).
-/

namespace MipsAssembler.Directory

/-! ## Content by path -/

theorem find_put_same (d : Directory) (path : Path) (content : List UInt8) :
    (d.put path content).find? path = some content := by
  have hnone : (d.files.filter (·.path ≠ path)).find? (·.path = path) = none := by
    rw [List.find?_eq_none]
    intro f hf
    simpa using (List.mem_filter.1 hf).2
  unfold find? put
  rw [List.find?_append, hnone]
  simp

theorem find_put_other (d : Directory) {path other : Path} (content : List UInt8) (h : other ≠ path) :
    (d.put path content).find? other = d.find? other := by
  simp only [find?, put, List.find?_append, List.find?_filter]
  congr 1
  have hlast : [(⟨path, content⟩ : StoredFile)].find? (·.path = other) = none := by simp [Ne.symm h]
  rw [hlast, Option.or_none]
  congr 1
  funext f
  by_cases hf : f.path = other
  · simp [hf, h]
  · simp [hf]

/-- A file that was empty holds exactly what is written over it. -/
theorem overwrite_empty (d : Directory) (path : Path) (bytes : List UInt8) (h : d.find? path = some []) :
    d.overwrite path bytes = d.put path bytes := by
  simp [overwrite, h]

/-! ## Where a walk leads -/

/-- Whatever the directory holds, a walk that leads to a file or to a vacant place follows its steps to their end. -/
theorem walk_path {d : Directory} {steps : List String} {here path : Path}
    (h : d.walk here steps = .ok (.file path) ∨ d.walk here steps = .ok (.vacant path)) :
    path = steps.foldl Path.follow here := by
  induction steps generalizing here with
  | nil => rcases h with h | h <;> cases h
  | cons step rest ih =>
    rw [List.foldl_cons]
    unfold walk at h
    dsimp only at h
    split at h
    · exact ih h
    · split at h
      · rcases h with h | h <;> cases h
      · split at h
        · exact ih h
        · split at h <;> rcases h with h | h <;> cases h <;> rfl

/-- The same place when a file was put at `path`. -/
def filled (path : Path) : Place → Place
  | .vacant other => if other = path then .file other else .vacant other
  | place => place

/-- Putting a file at `path` changes no way through the directory. -/
theorem walk_put {d : Directory} {steps : List String} {here path : Path} {place : Place} (content : List UInt8)
    (h : d.walk here steps = .ok place) : (d.put path content).walk here steps = .ok (filled path place) := by
  induction steps generalizing here with
  | nil =>
    cases h
    rfl
  | cons step rest ih =>
    unfold walk at h ⊢
    dsimp only at h ⊢
    split at h
    · rename_i hd
      rw [if_pos hd]
      exact ih h
    · rename_i hd
      rw [if_neg hd]
      split at h
      · cases h
      · rename_i hl
        rw [if_neg hl]
        split at h
        · rename_i hf
          rw [if_pos (show Path.follow here step ∈ (d.put path content).folders from hf)]
          exact ih h
        · rename_i hf
          rw [if_neg (show ¬ Path.follow here step ∈ (d.put path content).folders from hf)]
          -- Only here is the content asked for, and only whether there is one.
          by_cases hp : Path.follow here step = path
          · rw [hp] at h ⊢
            rw [find_put_same]
            split at h <;> cases h <;> simp [filled]
          · rw [find_put_other d content hp]
            split at h <;> cases h <;> simp_all [filled]

/-! ## Reading and creating by name -/

/-- A name that can be read leads to a file of the directory. -/
theorem read_ok {d : Directory} {name : String} {bytes : List UInt8} (h : d.read name = .ok bytes) :
    nameError? name = none ∧ d.walk [] (steps name) = .ok (.file (pathOf name)) ∧ endsWithSlash name = false ∧
      bytes = (d.find? (pathOf name)).getD [] := by
  unfold read at h
  split at h
  · cases h
  · rename_i hn
    split at h
    · cases h
    · cases h
    · cases h
    · rename_i path hw
      obtain rfl := walk_path (.inl hw)
      split at h
      · cases h
      · rename_i hs
        cases h
        exact ⟨hn, hw, by simpa using hs, rfl⟩

theorem read_of_walk {d : Directory} {name : String} (hn : nameError? name = none)
    (hw : d.walk [] (steps name) = .ok (.file (pathOf name))) (hs : endsWithSlash name = false) :
    d.read name = .ok ((d.find? (pathOf name)).getD []) := by
  simp [read, hn, hw, hs]

/-- A file that opens for writing is empty, at the path of its name. -/
theorem create_ok {d d' : Directory} {name : String} {path : Path} (h : d.create name = .ok (d', path)) :
    nameError? name = none ∧ endsWithSlash name = false ∧ path = pathOf name ∧ d' = d.put path [] ∧
      (d.walk [] (steps name) = .ok (.file path) ∨ d.walk [] (steps name) = .ok (.vacant path)) := by
  unfold create at h
  split at h
  · cases h
  · rename_i hn
    split at h
    · split at h <;> cases h
    · rename_i hs
      split at h
      · cases h
      · cases h
      · rename_i hw
        cases h
        exact ⟨hn, by simpa using hs, walk_path (.inr hw), rfl, .inr hw⟩
      · rename_i hw
        cases h
        exact ⟨hn, by simpa using hs, walk_path (.inl hw), rfl, .inl hw⟩

/-- A name that could be read still can, when a file is put anywhere. -/
theorem read_put {d : Directory} {name : String} {bytes : List UInt8} (path : Path) (content : List UInt8)
    (h : d.read name = .ok bytes) :
    (d.put path content).read name = .ok (if pathOf name = path then content else bytes) := by
  obtain ⟨hn, hw, hs, rfl⟩ := read_ok h
  rw [read_of_walk hn (walk_put content hw) hs]
  split
  · rename_i hp
    rw [hp, find_put_same, Option.getD_some]
  · rename_i hp
    rw [find_put_other d content hp]

theorem read_put_other {d : Directory} {name : String} {bytes : List UInt8} {path : Path} (content : List UInt8)
    (h : d.read name = .ok bytes) (hp : pathOf name ≠ path) : (d.put path content).read name = .ok bytes := by
  rw [read_put path content h, if_neg hp]

/-- A name that opens for writing still does, when a file is put anywhere. -/
theorem create_put {d d' : Directory} {name : String} {path : Path} (other : Path) (content : List UInt8)
    (h : d.create name = .ok (d', path)) :
    (d.put other content).create name = .ok ((d.put other content).put path [], path) := by
  obtain ⟨hn, hs, -, -, hw⟩ := create_ok h
  rcases hw with hw | hw
  · simp [create, hn, hs, walk_put content hw, filled]
  · by_cases hp : path = other
    · simp [create, hn, hs, walk_put content hw, filled, hp]
    · simp [create, hn, hs, walk_put content hw, filled, hp]

/-- A name that opens for writing reads as what is put at its path. -/
theorem read_put_create {d d' : Directory} {name : String} {path : Path} (content : List UInt8)
    (h : d.create name = .ok (d', path)) : (d.put path content).read name = .ok content := by
  obtain ⟨hn, hs, rfl, -, hw⟩ := create_ok h
  have hw' : (d.put (pathOf name) content).walk [] (steps name) = .ok (.file (pathOf name)) := by
    rcases hw with hw | hw
    · exact walk_put content hw
    · rw [walk_put content hw, filled, if_pos rfl]
  rw [read_of_walk hn hw' hs, find_put_same, Option.getD_some]

end MipsAssembler.Directory
