import InlineSchema.Files.Workspace
import InlineSchema.Proofs.Entries
import InlineSchema.Proofs.FileSystem

/-! # A working directory keeps the laws

What a path leads to is determined by the directories, and nothing that is done with a staged file
changes those. So a working directory is a file system as it is relied on.
-/
namespace InlineSchema

namespace Workspace

variable {w w' : Workspace} {name output staged path : String}

def files (w : Workspace) (name : String) : Option File := Entries.get? w.entries name

theorem files_put (w : Workspace) (name : String) (file : File) :
    (w.put name file).files = Function.update w.files name (some file) := by
  funext k
  rw [files, put, Entries.get?_insert, Function.update_apply]
  rfl

theorem files_remove (w : Workspace) (name : String) :
    (w.remove name).files = Function.update w.files name none := by
  funext k
  rw [files, remove, Entries.get?_erase, Function.update_apply]
  rfl

/-! ## Where paths lead -/

def SameDirectories (w w' : Workspace) : Prop :=
  ∀ name, w'.files name = some .directory ↔ w.files name = some .directory

theorem SameDirectories.listing? (h : SameDirectories w w') : w'.listing? = w.listing? := by
  have hdirectory : w'.isDirectory = w.isDirectory := by
    funext place
    unfold isDirectory get?
    split
    · rfl
    · rw [Bool.eq_iff_iff, beq_iff_eq, beq_iff_eq]
      exact h _
  have hstep : w'.step? = w.step? := by
    funext place part
    simp only [step?, hdirectory]
  funext path
  simp only [Workspace.listing?, place?, walk?, hstep]

theorem sameDirectories_put {file : File} (h : w.files name ≠ some .directory)
    (hfile : file ≠ .directory) : SameDirectories w (w.put name file) := by
  intro k
  rw [files_put, Function.update_apply]
  split
  next he =>
    rw [he]
    simp [h, hfile]
  next => rfl

theorem sameDirectories_remove (h : w.files name ≠ some .directory) :
    SameDirectories w (w.remove name) := by
  intro k
  rw [files_remove, Function.update_apply]
  split
  next he =>
    rw [he]
    simp [h]
  next => rfl

/-! ## What the operations do -/

theorem read_of_listing? {text : String} (hlisting : w.listing? path = some name)
    (hfile : w.files name = some (.text text)) : w.read path = .text text := by
  obtain ⟨place, hplace, hname⟩ := Option.bind_eq_some_iff.mp hlisting
  have hget : w.get? place = some (.text text) := by
    rw [get?, hname]
    exact hfile
  rw [read, hplace, Option.bind_some, hget]

theorem fresh?_eq_some {directory : Place} (h : w.fresh? directory = some (path, name)) :
    w.listing? path = some name ∧ w.files name = none := by
  obtain ⟨n, -, hn⟩ := List.exists_of_findSome?_eq_some h
  obtain ⟨path', -, hn⟩ := Option.bind_eq_some_iff.mp hn
  obtain ⟨name', hlisting, hn⟩ := Option.bind_eq_some_iff.mp hn
  split at hn
  next => cases hn
  next hfree =>
    cases hn
    exact ⟨hlisting, by simpa [Entries.contains, files] using hfree⟩

/-- An empty file is created at a place where no file was. -/
theorem create_eq_some (h : w.create output = (some staged, w')) :
    ∃ name, w.listing? staged = some name ∧ w.files name = none ∧ w' = w.put name (.text "") := by
  unfold create at h
  split at h
  next => cases h
  next path name hfresh =>
    cases h
    obtain ⟨directory, -, hfresh⟩ := Option.bind_eq_some_iff.mp hfresh
    obtain ⟨hlisting, hfree⟩ := fresh?_eq_some hfresh
    exact ⟨name, hlisting, hfree, rfl⟩

theorem create_eq_none (h : w.create output = (none, w')) : w' = w := by
  unfold create at h
  split at h <;> cases h
  rfl

theorem write_of_listing? (h : w.listing? staged = some name) (text : String) :
    w.write staged text = (true, w.put name (.text text)) := by
  rw [write, h]

theorem discard_of_listing? (h : w.listing? staged = some name) :
    w.discard staged = w.remove name := by
  rw [discard, h]
  rfl

theorem persist_eq_false (h : w.persist staged output = (false, w')) : w' = w := by
  unfold persist at h
  split at h
  next =>
    split at h
    next => cases h; rfl
    next => split at h <;> cases h; rfl
  next => cases h; rfl

/-- A file takes the place of the output unless that is a directory. -/
theorem persist_of_listing? {target : String} {file : File}
    (hlisting : w.listing? staged = some name) (htarget : w.listing? output = some target)
    (hfile : w.files name = some file) :
    w.persist staged output = if w.files target = some .directory then (false, w)
      else (true, (w.remove name).put target file) := by
  simp only [persist, hlisting, htarget, show Entries.get? w.entries name = some file from hfile]
  rfl

/-- No path leads past a text that has been moved. -/
theorem persist_eq_true {text : String} (h : w.persist staged output = (true, w'))
    (hlisting : w.listing? staged = some name) (hfile : w.files name = some (.text text)) :
    ∃ target, w.listing? output = some target ∧ w'.listing? output = some target ∧
      w'.files =
        Function.update (Function.update w.files name none) target (some (.text text)) := by
  cases htarget : w.listing? output with
  | none =>
    rw [persist, hlisting, htarget] at h
    cases h
  | some target =>
    rw [persist_of_listing? hlisting htarget hfile] at h
    split at h
    next => cases h
    next hkept =>
      cases h
      have hremove : SameDirectories w (w.remove name) := sameDirectories_remove (by simp [hfile])
      have hput : SameDirectories (w.remove name) ((w.remove name).put target (.text text)) :=
        sameDirectories_put ((hremove target).not.mpr hkept) nofun
      refine ⟨target, rfl, ?_, ?_⟩
      · rw [hput.listing?, hremove.listing?, htarget]
      · rw [files_put, files_remove]

end Workspace

/-! ## As a file system -/

/-- Runs of actions on states, as they are. -/
def FileSystem.ofState {σ Place : Type} (files : σ → Place → Option File)
    (place? : σ → String → Option Place) : FileSystem (StateM σ) σ Place where
  Runs x s a s' := x.run s = (a, s')
  of_pure h := by
    cases h
    exact ⟨rfl, rfl⟩
  of_bind {_ _ x _ _ s _} h := ⟨(x.run s).1, (x.run s).2, rfl, h⟩
  files := files
  place? := place?

namespace Workspace

variable {w : Workspace} {name path : String}

def fileSystem : FileSystem (StateM Workspace) Workspace String := .ofState files listing?

/-- A file under a name that was free, or was that of a file. -/
theorem beside_put {file : File} (hlisting : w.listing? path = some name)
    (hname : w.files name ≠ some .directory) (hfile : file ≠ .directory) :
    fileSystem.Beside w path name file (w.put name file) where
  files := files_put w name file
  place := (sameDirectories_put hname hfile).listing?
  leads := hlisting

theorem lawful_fileSystem : fileSystem.Lawful where
  fetch_keeps := nofun
  read_keeps h := by
    cases congrArg Prod.snd h
    exact .refl _ _
  read_text h hlisting hfile :=
    (Reading.text.inj ((read_of_listing? hlisting hfile).symm.trans (congrArg Prod.fst h))).symm
  create_fails h := create_eq_none h ▸ .refl _ _
  create_fresh h := by
    obtain ⟨name, hlisting, hfree, rfl⟩ := create_eq_some h
    exact ⟨name, hfree, beside_put hlisting (by simp [hfree]) nofun⟩
  permit_keeps h := by
    cases h
    exact .refl _ _
  write_touches h hlisting hfile := by
    obtain ⟨rfl, rfl⟩ := Prod.mk.inj ((write_of_listing? hlisting _).symm.trans h)
    exact ⟨_, beside_put hlisting (by simp [show files _ _ = _ from hfile]) nofun, fun _ => rfl⟩
  flush_touches h hlisting hfile := by
    cases h
    exact ⟨_, ⟨(Function.update_eq_self_iff.mpr hfile.symm).symm, rfl, hlisting⟩, fun _ => rfl⟩
  discard_removes h hlisting := by
    cases h
    change (Workspace.discard _ _).files = _
    rw [discard_of_listing? hlisting]
    exact files_remove _ _
  persist_leaves h := persist_eq_false h ▸ .refl _ _
  persist_replaces h hlisting hfile := persist_eq_true h hlisting hfile

end Workspace
end InlineSchema
