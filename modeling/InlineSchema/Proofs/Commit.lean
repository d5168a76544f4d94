import InlineSchema.Proofs.FileSystem
import InlineSchema.Proofs.Hoisting
import InlineSchema.Proofs.Machine

/-! # Output is verified or left alone

Hoisting into a file has two outcomes: it fails and every file is as before, or the output holds
the verified document and every other file is as before. The program prints and writes nothing that
was not verified.
-/
namespace InlineSchema

variable {m : Type → Type} [Monad m] {σ Place : Type} [DecidableEq Place]
  {S : FileSystem m σ Place} {s s₁ s' : σ}

theorem FileSystem.Replaces.of_same {output document : String}
    (h : S.Replaces s₁ output document s') (hsame : S.Same s s₁) : S.Replaces s output document s' := by
  obtain ⟨p, hp, hp', hfiles⟩ := h
  exact ⟨p, hsame.place ▸ hp, hp', hsame.files ▸ hfiles⟩

theorem Failure.exitCode_ne_zero {Fault : Type} (e : Failure Fault) : e.exitCode ≠ 0 := by
  cases e <;> exact Nat.succ_ne_zero _

variable [Files m] [Network m]

namespace CommandLine

def optionsOf (definitions : String) (format : Format) : Options :=
  (Options.default.withDefinitions definitions).withFormat format

/-- What a command has done when it does not fail. -/
def Done (S : FileSystem m σ Place) (s : σ) (x : Outcome) (s' : σ) : Command → Prop
  | .hoist source output definitions format json => ∃ f text s₁ hoisted,
      Format.ofName? format = some f ∧ S.Runs (Files.loadSource source) s (.ok text) s₁ ∧
      hoist (optionsOf definitions f) text = .ok hoisted ∧
      findDivergence (optionsOf definitions f) text hoisted.document = .ok none ∧
      x.stderr = reportText json hoisted.report ∧
      match output with
      | none => x.stdout = hoisted.document ∧ S.files s' = S.files s
      | some path => x.stdout = "" ∧ S.Replaces s path hoisted.document s'
  | .check original transformed definitions => ∃ text s₁ text' s₂,
      S.Runs (Files.loadSource original) s (.ok text) s₁ ∧
      S.Runs (Files.loadSource transformed) s₁ (.ok text') s₂ ∧
      findDivergence (Options.default.withDefinitions definitions) text text' = .ok none ∧
      x.stdout = "Equivalent\n" ∧ S.files s' = S.files s
  | .tell text => x.stdout = text ∧ S.files s' = S.files s

def Sound (S : FileSystem m σ Place) (s : σ) (command : Command) (x : Outcome) (s' : σ) : Prop :=
  (x.exitCode ≠ 0 ∧ x.stdout = "" ∧ S.files s' = S.files s) ∨
    (x.exitCode = 0 ∧ Done S s x s' command)

theorem sound_failed {Fault : Type} (e : Failure Fault) (command : Command)
    (h : S.files s' = S.files s) : Sound S s command (.failed e) s' :=
  .inl ⟨e.exitCode_ne_zero, rfl, h⟩

theorem sound_runHoist (hS : S.Lawful) {source : String} {output : Option String}
    {definitions format : String} {json : Bool} {x : Outcome}
    (hrun : S.Runs (runHoist source output definitions format json) s x s') :
    Sound S s (.hoist source output definitions format json) x s' := by
  rw [runHoist] at hrun
  cases hformat : Format.ofName? format with
  | none =>
    rw [hformat] at hrun
    obtain ⟨rfl, rfl⟩ := S.of_pure hrun
    exact .inl ⟨Nat.succ_ne_zero 1, rfl, rfl⟩
  | some f =>
    rw [hformat] at hrun
    obtain ⟨loaded, s₁, hload, hrun₁⟩ := S.of_bind hrun
    have hsame := hS.loadSource hload
    cases loaded with
    | error e =>
      obtain ⟨rfl, rfl⟩ := S.of_pure hrun₁
      exact sound_failed e _ hsame.files
    | ok text =>
      cases output with
      | none =>
        simp only [show (Options.default.withDefinitions definitions).withFormat f =
          optionsOf definitions f from rfl] at hrun₁
        cases hhoist : hoist (optionsOf definitions f) text with
        | error e =>
          rw [hhoist] at hrun₁
          obtain ⟨rfl, rfl⟩ := S.of_pure hrun₁
          exact sound_failed e _ hsame.files
        | ok hoisted =>
          rw [hhoist] at hrun₁
          obtain ⟨rfl, rfl⟩ := S.of_pure hrun₁
          exact .inr ⟨rfl, f, text, _, hoisted, hformat, hload, hhoist,
            (hoist_eq_ok_iff.mp hhoist).2, rfl, rfl, hsame.files⟩
      | some path =>
        obtain ⟨outcome, s₂, hwrite, hrun₂⟩ := S.of_bind hrun₁
        rcases hS.hoistTo hwrite with ⟨e, rfl, hfiles⟩ | ⟨hoisted, rfl, hhoist, hreplaces⟩
        · obtain ⟨rfl, rfl⟩ := S.of_pure hrun₂
          exact sound_failed e _ (hfiles.trans hsame.files)
        · obtain ⟨rfl, rfl⟩ := S.of_pure hrun₂
          exact .inr ⟨rfl, f, text, s₁, hoisted, hformat, hload, hhoist,
            (hoist_eq_ok_iff.mp hhoist).2, rfl, rfl, hreplaces.of_same hsame⟩

theorem sound_runCheck (hS : S.Lawful) {original transformed definitions : String} {x : Outcome}
    (hrun : S.Runs (runCheck original transformed definitions) s x s') :
    Sound S s (.check original transformed definitions) x s' := by
  rw [runCheck] at hrun
  obtain ⟨loaded, s₁, hload, hrun₁⟩ := S.of_bind hrun
  have hsame := hS.loadSource hload
  cases loaded with
  | error e =>
    obtain ⟨rfl, rfl⟩ := S.of_pure hrun₁
    exact sound_failed e _ hsame.files
  | ok text =>
    obtain ⟨loaded', s₂, hload', hrun₂⟩ := S.of_bind hrun₁
    have hfiles := (hS.loadSource hload').files.trans hsame.files
    cases loaded' with
    | error e =>
      obtain ⟨rfl, rfl⟩ := S.of_pure hrun₂
      exact sound_failed e _ hfiles
    | ok text' =>
      cases hfind : findDivergence (Options.default.withDefinitions definitions) text text' with
      | error e =>
        simp only [hfind] at hrun₂
        obtain ⟨rfl, rfl⟩ := S.of_pure hrun₂
        exact sound_failed e _ hfiles
      | ok found =>
        simp only [hfind] at hrun₂
        cases found with
        | none =>
          obtain ⟨rfl, rfl⟩ := S.of_pure hrun₂
          exact .inr ⟨rfl, text, s₁, text', _, hload, hload', hfind, rfl, hfiles⟩
        | some d =>
          obtain ⟨rfl, rfl⟩ := S.of_pure hrun₂
          exact .inl ⟨Nat.one_ne_zero, rfl, hfiles⟩

theorem sound_run (hS : S.Lawful) {command : Command} {x : Outcome}
    (hrun : S.Runs command.run s x s') : Sound S s command x s' := by
  cases command with
  | hoist => exact sound_runHoist hS hrun
  | check => exact sound_runCheck hS hrun
  | tell text =>
    obtain ⟨rfl, rfl⟩ := S.of_pure hrun
    exact .inr ⟨rfl, rfl, rfl⟩

end CommandLine

/-- Nothing that was not verified is left behind, on whatever file system. A failed run into a file
changes no file; one that succeeds reports what hoisting in memory reports, and changes the output
alone, which then holds the verified document. A command line that fails prints nothing and changes
no file, and a command that does not fail has done what it has to: a `hoist` has printed the
verified document, or put it into the output. -/
theorem verified_or_untouched (S : FileSystem m σ Place) (hS : S.Lawful) (s s' : σ) :
    (∀ o source output x, S.Runs (Files.hoistTo o source output) s x s' →
      (∀ e, x = .error e → S.files s' = S.files s) ∧
      ∀ report, x = .ok report → ∃ document, hoist o source = .ok ⟨document, report⟩ ∧
        findDivergence o source document = .ok none ∧ S.Replaces s output document s') ∧
    ∀ args x, S.Runs (CommandLine.run args) s x s' →
      (x.exitCode ≠ 0 → x.stdout = "" ∧ S.files s' = S.files s) ∧
      (x.exitCode = 0 → ∃ command, CommandLine.Command.ofArguments? args = some command ∧
        CommandLine.Done S s x s' command) := by
  constructor
  · intro o source output x hrun
    rcases hS.hoistTo hrun with ⟨e, rfl, hfiles⟩ | ⟨⟨document, report⟩, rfl, hhoist, hreplaces⟩
    · exact ⟨fun _ _ => hfiles, nofun⟩
    · refine ⟨nofun, fun _ hreport => ?_⟩
      cases hreport
      exact ⟨document, hhoist, (hoist_eq_ok_iff.mp hhoist).2, hreplaces⟩
  · intro args x hrun
    rw [CommandLine.run] at hrun
    cases hcommand : CommandLine.Command.ofArguments? args with
    | none =>
      rw [hcommand] at hrun
      obtain ⟨rfl, rfl⟩ := S.of_pure hrun
      exact ⟨fun _ => ⟨rfl, rfl⟩, nofun⟩
    | some command =>
      rw [hcommand] at hrun
      rcases CommandLine.sound_run hS hrun with ⟨hcode, hstdout, hfiles⟩ | ⟨hcode, hdone⟩
      · exact ⟨fun _ => ⟨hstdout, hfiles⟩, fun h => absurd h hcode⟩
      · exact ⟨fun h => absurd hcode h, fun _ => ⟨command, rfl, hdone⟩⟩

open Yaml (Value)

def propertyValue : Value :=
  .mapping [(.string "d", .mapping [(.string "A", .mapping [(.string "properties",
    .mapping [(.string "p", .mapping [(.string "properties", .mapping [])])])])])]

def propertyDocument : Node :=
  .mapping [("d", .mapping [
    ("A", .mapping [("properties", .mapping [("p", Node.reference "#/d/AP")])]),
    ("AP", .mapping [("properties", .mapping [])])])]

def propertySource : String := "d:\n A:\n  properties:\n   p:\n    properties: {}\n"

theorem hoist_propertySource : hoist ⟨["d"], .yaml⟩ propertySource =
    .ok ⟨propertyDocument.render .yaml, ⟨["AP"]⟩⟩ := by
  have hsource : Value.read? propertySource = some propertyValue := by decide +kernel
  have hread : Value.read? (propertyDocument.render .yaml) = some propertyDocument.toValue := by
    decide +kernel
  have hextract : extract ⟨["d"], .yaml⟩ (Node.ofValue propertyValue) =
    (propertyDocument, .ok ["AP"]) := rfl
  have hjson : Json.ofNode (Node.ofValue propertyValue) = .object [("d", .object [("A",
      .object [("properties", .object [("p", .object [("properties", .object [])])])])])] := rfl
  refine (hoist_of_extract hsource hextract hread (Extraction.divergence?_extract (by decide)
    (by decide) hextract (Node.distinct_ofValue _) ?_ fun target ht => ?_)).2
  · simp [hjson, Json.bareReferences_object_iff, Equivalence.hasReference, Node.refKey]
  · simp [hjson, Json.refersTo_object_iff, Node.refKey] at ht

/-- A file outside the working directory, and a document within reach. -/
def hostedMachine (space : Nat) : Machine :=
  ⟨⟨[("/tmp", .directory), ("/tmp/api.yaml", .text "old")]⟩, space,
    [("https://host/api.yaml", propertySource)]⟩

def hostedCommand : CommandLine.Command :=
  .hoist "https://host/api.yaml" (some "/tmp/api.yaml") "d" "yaml" false

def hostedRun (space : Nat) : CommandLine.Outcome × Machine :=
  (CommandLine.run (m := StateM Machine) ["hoist", "https://host/api.yaml", "--definitions", "d",
    "-o", "/tmp/api.yaml"]).run (hostedMachine space)

theorem ofArguments?_hostedRun : CommandLine.Command.ofArguments?
    ["hoist", "https://host/api.yaml", "--definitions", "d", "-o", "/tmp/api.yaml"] =
      some hostedCommand := by
  decide +kernel

theorem ofName?_yaml : Format.ofName? "yaml" = some .yaml := by decide +kernel

theorem loadSource_hostedMachine (space : Nat) :
    (Files.loadSource (m := StateM Machine) "https://host/api.yaml").run (hostedMachine space) =
      (.ok propertySource, hostedMachine space) := by
  have hurl : Files.isUrl "https://host/api.yaml" = true := by decide +kernel
  rw [Files.loadSource, if_pos hurl]
  rfl

theorem exitCode_hostedRun : (hostedRun 1000).1.exitCode = 0 := by
  have hcreate : (hostedMachine 1000).workspace.create "/tmp/api.yaml" = (some "/tmp/.staged0",
    (hostedMachine 1000).workspace.put "/tmp/.staged0" (.text "")) := by decide +kernel
  have hspace : (propertyDocument.render .yaml).utf8ByteSize ≤ (hostedMachine 1000).space := by
    decide +kernel
  have hlisting : (hostedMachine 1000).workspace.listing? "/tmp/api.yaml" = some "/tmp/api.yaml" := by
    decide +kernel
  obtain ⟨s', hrun⟩ := Machine.hoistTo_succeeds hoist_propertySource hcreate hlisting
    (by decide +kernel) hspace
  have hoptions : (Options.default.withDefinitions "d").withFormat .yaml = ⟨["d"], .yaml⟩ := by
    decide +kernel
  rw [hostedRun, CommandLine.run, ofArguments?_hostedRun]
  simp only [hostedCommand, CommandLine.Command.run, CommandLine.runHoist, ofName?_yaml, hoptions]
  rw [Machine.run_bind_of (loadSource_hostedMachine 1000)]
  simp only
  rw [Machine.run_bind_of hrun]
  rfl

/-- With room for the document the output is replaced. Without, a part of the document has been
written, and every file is as before. -/
theorem verified_or_untouched_hostedMachine :
    (hostedRun 1000).1.exitCode = 0 ∧
      Machine.fileSystem.Replaces (hostedMachine 1000) "/tmp/api.yaml"
        (propertyDocument.render .yaml) (hostedRun 1000).2 ∧
    (hostedRun 12).1.exitCode = 3 ∧ (hostedRun 12).2.space = 0 ∧
      (hostedRun 12).2.workspace.files = (hostedMachine 12).workspace.files := by
  have hfull : (hostedRun 12).1.exitCode = 3 ∧ (hostedRun 12).2.space = 0 := by decide +kernel
  have hsmall := (verified_or_untouched Machine.fileSystem Machine.lawful_fileSystem
    (hostedMachine 12) _).2 _ (hostedRun 12).1 rfl
  have hlarge := (verified_or_untouched Machine.fileSystem Machine.lawful_fileSystem
    (hostedMachine 1000) _).2 _ (hostedRun 1000).1 rfl
  obtain ⟨command, hcommand, hdone⟩ := hlarge.2 exitCode_hostedRun
  cases ofArguments?_hostedRun.symm.trans hcommand
  obtain ⟨f, text, s₁, hoisted, hformat, hload, hhoist, -, -, -, hreplaces⟩ := hdone
  cases ofName?_yaml.symm.trans hformat
  cases (loadSource_hostedMachine 1000).symm.trans hload
  cases hoist_propertySource.symm.trans hhoist
  exact ⟨exitCode_hostedRun, hreplaces, hfull.1, hfull.2, (hsmall.1 (by rw [hfull.1]; decide)).2⟩

end InlineSchema
