import InlineSchema.Files.Machine
import InlineSchema.Proofs.Workspace

/-! # A machine keeps the laws

All but writing is done to the files as in a working directory, and a write that does not fit on the
disk leaves a part of the text in the staged file alone.
-/
namespace InlineSchema.Machine

open Workspace (beside_put)

variable {s s' : Machine} {staged text name : String}

def fileSystem : FileSystem (StateM Machine) Machine String :=
  .ofState (·.workspace.files) (·.workspace.listing?)

theorem run_lift {α : Type} {f : Workspace → α × Workspace} {a : α}
    (h : (lift f).run s = (a, s')) : f s.workspace = (a, s'.workspace) := by
  cases h
  rfl

theorem same_of_workspace (h : Workspace.fileSystem.Same s.workspace s'.workspace) :
    fileSystem.Same s s' :=
  ⟨h.files, h.place⟩

theorem beside_of_workspace {file : File}
    (h : Workspace.fileSystem.Beside s.workspace staged name file s'.workspace) :
    fileSystem.Beside s staged name file s' :=
  ⟨h.files, h.place, h.leads⟩

/-- Something is in the file after a write, and the text if it succeeds. -/
theorem write_eq {ok : Bool} (hlisting : s.workspace.listing? staged = some name)
    (h : s.write staged text = (ok, s')) :
    ∃ file, s'.workspace = s.workspace.put name file ∧ file ≠ .directory ∧
      (ok = true → file = .text text) := by
  rw [write, hlisting] at h
  simp only at h
  split at h
  next =>
    cases h
    exact ⟨.text text, rfl, nofun, fun _ => rfl⟩
  next =>
    cases h
    exact ⟨.bytes (text.toUTF8.toList.take s.space), rfl, nofun, nofun⟩

theorem lawful_fileSystem : fileSystem.Lawful where
  fetch_keeps hfetch h := by
    cases hfetch
    cases h
    exact .refl _ _
  read_keeps h := same_of_workspace (Workspace.lawful_fileSystem.read_keeps (run_lift h))
  read_text h := Workspace.lawful_fileSystem.read_text (run_lift h)
  create_fails h := same_of_workspace (Workspace.lawful_fileSystem.create_fails (run_lift h))
  create_fresh h := by
    obtain ⟨p, hfree, hempty⟩ := Workspace.lawful_fileSystem.create_fresh (run_lift h)
    exact ⟨p, hfree, beside_of_workspace hempty⟩
  permit_keeps h := by
    cases h
    exact .refl _ _
  write_touches {staged text s ok s' name} h hlisting hfile := by
    obtain ⟨file, hw, hne, htext⟩ := write_eq hlisting h
    refine ⟨file, beside_of_workspace ?_, htext⟩
    rw [hw]
    exact beside_put hlisting (by simp [show s.workspace.files name = _ from hfile]) hne
  flush_touches h hlisting hfile := by
    cases h
    exact ⟨_, ⟨(Function.update_eq_self_iff.mpr hfile.symm).symm, rfl, hlisting⟩, fun _ => rfl⟩
  discard_removes h := Workspace.lawful_fileSystem.discard_removes (run_lift h)
  persist_leaves h := same_of_workspace (Workspace.lawful_fileSystem.persist_leaves (run_lift h))
  persist_replaces h := Workspace.lawful_fileSystem.persist_replaces (run_lift h)

/-! ## A run that succeeds -/

theorem run_bind_of {σ α β : Type} {x : StateM σ α} {s s₁ : σ} {a : α} (h : x.run s = (a, s₁))
    (f : α → StateM σ β) : (x >>= f).run s = (f a).run s₁ := by
  rw [StateT.run_bind, h]
  rfl

theorem run_lift_eq {α : Type} {f : Workspace → α × Workspace} {a : α} {w : Workspace}
    (h : f s.workspace = (a, w)) : (lift f).run s = (a, { s with workspace := w }) := by
  change ((f s.workspace).1, ({ s with workspace := (f s.workspace).2 } : Machine)) = _
  rw [h]

theorem write_of_listing? (hlisting : s.workspace.listing? staged = some name)
    (hspace : text.utf8ByteSize ≤ s.space) : s.write staged text =
      (true, { s with
        workspace := s.workspace.put name (.text text)
        space := s.space - text.utf8ByteSize }) := by
  rw [write, hlisting]
  exact if_pos hspace

/-- With room for the document, hoisting into a file succeeds. -/
theorem hoistTo_succeeds {o : Options} {source output target staged : String} {h : Hoisted}
    {w : Workspace} (hhoist : hoist o source = .ok h)
    (hcreate : s.workspace.create output = (some staged, w))
    (htarget : s.workspace.listing? output = some target)
    (hkept : s.workspace.files target ≠ some .directory)
    (hspace : h.document.utf8ByteSize ≤ s.space) :
    ∃ s', (Files.hoistTo (m := StateM Machine) o source output).run s = (.ok h.report, s') := by
  obtain ⟨htransform, hfind⟩ := hoist_eq_ok_iff.mp hhoist
  obtain ⟨name, hlisting, hfree, rfl⟩ := Workspace.create_eq_some hcreate
  let s₁ : Machine := { s with workspace := s.workspace.put name (.text "") }
  let s₂ : Machine := { s₁ with
    workspace := s₁.workspace.put name (.text h.document)
    space := s₁.space - h.document.utf8ByteSize }
  let s₃ : Machine := { s₂ with
    workspace := (s₂.workspace.remove name).put target (.text h.document) }
  have hempty : fileSystem.Beside s staged name (.text "") s₁ :=
    beside_of_workspace (Workspace.beside_put hlisting (by simp [hfree]) nofun)
  have hfull : fileSystem.Beside s staged name (.text h.document) s₂ :=
    hempty.trans (beside_of_workspace (Workspace.beside_put hempty.leads_after
      (by simp [show s₁.workspace.files name = _ from hempty.get]) nofun))
  have hkept₂ : s₂.workspace.files target ≠ some .directory := by
    rw [show s₂.workspace.files = _ from hfull.files, Function.update_apply]
    split
    next => nofun
    next => exact hkept
  have hwrite : (Files.write (m := StateM Machine) staged h.document).run s₁ = (true, s₂) :=
    write_of_listing? hempty.leads_after hspace
  have hread : (Files.read (m := StateM Machine) staged).run s₂ = (.text h.document, s₂) :=
    run_lift_eq (congrArg (·, s₂.workspace)
      (Workspace.read_of_listing? hfull.leads_after hfull.get))
  have hpersist : (Files.persist (m := StateM Machine) staged output).run s₂ = (true, s₃) :=
    run_lift_eq ((Workspace.persist_of_listing? hfull.leads_after
      ((congrFun hfull.place output).trans htarget) hfull.get).trans (if_neg hkept₂))
  have hfill : (Files.fill (m := StateM Machine) h.document output staged).run s₁ = (true, s₂) :=
    (run_bind_of (show (Files.permit (m := StateM Machine) staged output).run s₁ = (true, s₁)
      from rfl) _).trans ((run_bind_of hwrite _).trans rfl)
  have hsettle : (Files.settle (m := StateM Machine) o source h.document output staged).run s₁ =
      (.ok (), s₃) := by
    refine (run_bind_of hfill _).trans ((run_bind_of hread _).trans ?_)
    simp only [checkEquivalence_eq_ok_iff.mpr hfind]
    exact (run_bind_of hpersist _).trans rfl
  have hcommit : (Files.commit (m := StateM Machine) o source h.document output).run s =
      (.ok (), s₃) :=
    (run_bind_of (run_lift_eq hcreate) _).trans ((run_bind_of hsettle _).trans rfl)
  refine ⟨s₃, ?_⟩
  rw [Files.hoistTo, htransform]
  exact (run_bind_of hcommit _).trans rfl

end InlineSchema.Machine
