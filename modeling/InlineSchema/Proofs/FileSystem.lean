import Mathlib
import InlineSchema.CommandLine
import InlineSchema.Proofs.Divergence

/-! # Files under a program

Of a file system this much is relied on: a staged file gets a fresh name and goes when it is
discarded, nothing that is done with it changes another file, what has been written is read back,
and a move replaces the output or leaves it. From that alone an output is verified or left alone,
wherever the program fails.
-/
namespace InlineSchema

variable {m : Type → Type} [Monad m] {σ Place : Type}

/-- A meaning of the actions of `m` on states that hold files. From a state an action may give a
value and leave a state, and what a single operation may do is open. -/
structure FileSystem (m : Type → Type) [Monad m] (σ Place : Type) where
  Runs : {α : Type} → m α → σ → α → σ → Prop
  of_pure : ∀ {α : Type} {a b : α} {s s' : σ}, Runs (pure a) s b s' → b = a ∧ s' = s
  of_bind : ∀ {α β : Type} {x : m α} {f : α → m β} {b : β} {s s' : σ}, Runs (x >>= f) s b s' →
    ∃ a s₁, Runs x s a s₁ ∧ Runs (f a) s₁ b s'
  files : σ → Place → Option File
  /-- The place that a path names, whether or not something is there. -/
  place? : σ → String → Option Place

namespace FileSystem

/-- No file has changed, and no path leads elsewhere. -/
structure Same (S : FileSystem m σ Place) (s s' : σ) : Prop where
  files : S.files s' = S.files s
  place : S.place? s' = S.place? s

theorem Same.refl (S : FileSystem m σ Place) (s : σ) : S.Same s s := ⟨rfl, rfl⟩

variable [DecidableEq Place]

/-- Nothing has changed but that a file is at this place, where a path leads. -/
structure Beside (S : FileSystem m σ Place) (s : σ) (path : String) (p : Place) (file : File)
    (s' : σ) : Prop where
  files : S.files s' = Function.update (S.files s) p (some file)
  place : S.place? s' = S.place? s
  leads : S.place? s path = some p

/-- The document is where the output leads, and every other file is as it was. -/
def Replaces (S : FileSystem m σ Place) (s : σ) (output document : String) (s' : σ) : Prop :=
  ∃ p, S.place? s output = some p ∧ S.place? s' output = some p ∧
    S.files s' = Function.update (S.files s) p (some (.text document))

/-- What is relied on. -/
structure Lawful [Files m] [Network m] (S : FileSystem m σ Place) : Prop where
  fetch_keeps : ∀ {fetch : String → m (Except (Network.Fault m) String)} {url s x s'},
    Network.fetch? = some fetch → S.Runs (fetch url) s x s' → S.Same s s'
  read_keeps : ∀ {path s x s'}, S.Runs (Files.read path) s x s' → S.Same s s'
  /-- A text is read as it stands in the file. -/
  read_text : ∀ {path s content s' p stored}, S.Runs (Files.read path) s (.text content) s' →
    S.place? s path = some p → S.files s p = some (.text stored) → content = stored
  create_fails : ∀ {output s s'}, S.Runs (Files.create output) s none s' → S.Same s s'
  /-- The new file is empty, at a place where no file was. -/
  create_fresh : ∀ {output s staged s'}, S.Runs (Files.create output) s (some staged) s' →
    ∃ p, S.files s p = none ∧ S.Beside s staged p (.text "") s'
  permit_keeps : ∀ {staged output s ok s'}, S.Runs (Files.permit staged output) s ok s' →
    S.Same s s'
  /-- A write to an empty file leaves anything there, unless it succeeds. -/
  write_touches : ∀ {staged text s ok s' p}, S.Runs (Files.write staged text) s ok s' →
    S.place? s staged = some p → S.files s p = some (.text "") →
      ∃ file, S.Beside s staged p file s' ∧ (ok = true → file = .text text)
  flush_touches : ∀ {staged s ok s' p file}, S.Runs (Files.flush staged) s ok s' →
    S.place? s staged = some p → S.files s p = some file →
      ∃ file', S.Beside s staged p file' s' ∧ (ok = true → file' = file)
  discard_removes : ∀ {staged s x s' p}, S.Runs (Files.discard staged) s x s' →
    S.place? s staged = some p → S.files s' = Function.update (S.files s) p none
  persist_leaves : ∀ {staged output s s'}, S.Runs (Files.persist staged output) s false s' →
    S.Same s s'
  persist_replaces : ∀ {staged output s s' p text}, S.Runs (Files.persist staged output) s true s' →
    S.place? s staged = some p → S.files s p = some (.text text) →
      ∃ q, S.place? s output = some q ∧ S.place? s' output = some q ∧
        S.files s' = Function.update (Function.update (S.files s) p none) q (some (.text text))

variable {S : FileSystem m σ Place} {s s₁ s₂ s' : σ} {o : Options}
  {source document output staged text : String} {p : Place} {file file' : File}

/-! ## A staged file -/

theorem Beside.same (h : S.Beside s staged p file s₁) (h' : S.Same s₁ s') :
    S.Beside s staged p file s' :=
  ⟨h'.files.trans h.files, h'.place.trans h.place, h.leads⟩

/-- Two changes at one place. -/
theorem Beside.trans (h : S.Beside s staged p file s₁) (h' : S.Beside s₁ staged p file' s') :
    S.Beside s staged p file' s' := by
  refine ⟨?_, h'.place.trans h.place, h.leads⟩
  rw [h'.files, h.files, Function.update_idem]

theorem Beside.leads_after (h : S.Beside s staged p file s') : S.place? s' staged = some p := by
  rw [h.place]
  exact h.leads

theorem Beside.get (h : S.Beside s staged p file s') : S.files s' p = some file := by
  rw [h.files, Function.update_self]

variable [Files m] [Network m]

/-- A staged file holds the document if it could be filled, and something otherwise. -/
theorem Lawful.fill (hS : S.Lawful) (h : S.Beside s staged p (.text "") s₁) {ok : Bool}
    (hrun : S.Runs (Files.fill document output staged) s₁ ok s') :
    ∃ file, S.Beside s staged p file s' ∧ (ok = true → file = .text document) := by
  obtain ⟨permitted, s₂, hpermit, hrun₂⟩ := S.of_bind hrun
  have hempty := h.same (hS.permit_keeps hpermit)
  cases permitted with
  | false =>
    obtain ⟨rfl, rfl⟩ := S.of_pure hrun₂
    exact ⟨_, hempty, nofun⟩
  | true =>
    obtain ⟨written, s₃, hwrite, hrun₃⟩ := S.of_bind hrun₂
    obtain ⟨file, hfile, htext⟩ := hS.write_touches hwrite hempty.leads_after hempty.get
    have hwritten := hempty.trans hfile
    cases written with
    | false =>
      obtain ⟨rfl, rfl⟩ := S.of_pure hrun₃
      exact ⟨file, hwritten, nofun⟩
    | true =>
      obtain rfl := htext rfl
      obtain ⟨file', hfile', hsame⟩ := hS.flush_touches hrun₃ hwritten.leads_after hwritten.get
      exact ⟨file', hwritten.trans hfile', hsame⟩

/-- The staged file is still there, or it has become the output and is equivalent to the source. -/
theorem Lawful.settle (hS : S.Lawful) (hfree : S.files s p = none)
    (h : S.Beside s staged p (.text "") s₁) {x : Except Failure Unit}
    (hrun : S.Runs (Files.settle o source document output staged) s₁ x s') :
    (∃ e file, x = .error e ∧ S.Beside s staged p file s') ∨
      (x = .ok () ∧ checkEquivalence o source document = .ok () ∧
        S.Replaces s output document s') := by
  obtain ⟨filled, s₂, hfill, hrun₂⟩ := S.of_bind hrun
  obtain ⟨file, hfilled, hfile⟩ := hS.fill h hfill
  cases filled with
  | false =>
    obtain ⟨rfl, rfl⟩ := S.of_pure hrun₂
    exact .inl ⟨_, file, rfl, hfilled⟩
  | true =>
    obtain ⟨reading, s₃, hread, hrun₃⟩ := S.of_bind hrun₂
    have hkept := hfilled.same (hS.read_keeps hread)
    cases reading with
    | missing | unreadable =>
      obtain ⟨rfl, rfl⟩ := S.of_pure hrun₃
      exact .inl ⟨_, file, rfl, hkept⟩
    | text written =>
      cases hcheck : checkEquivalence o source written with
      | error e =>
        simp only [hcheck] at hrun₃
        obtain ⟨rfl, rfl⟩ := S.of_pure hrun₃
        exact .inl ⟨e, file, rfl, hkept⟩
      | ok =>
        simp only [hcheck] at hrun₃
        obtain ⟨moved, s₄, hpersist, hrun₄⟩ := S.of_bind hrun₃
        cases moved with
        | false =>
          obtain ⟨rfl, rfl⟩ := S.of_pure hrun₄
          exact .inl ⟨_, file, rfl, hkept.same (hS.persist_leaves hpersist)⟩
        | true =>
          obtain ⟨rfl, rfl⟩ := S.of_pure hrun₄
          obtain rfl := hfile rfl
          obtain rfl := hS.read_text hread hfilled.leads_after hfilled.get
          obtain ⟨q, hq, hq', hfiles⟩ := hS.persist_replaces hpersist hkept.leads_after hkept.get
          refine .inr ⟨rfl, hcheck, q, ?_, hq', ?_⟩
          · rw [← hq, hkept.place]
          · rw [hfiles, hkept.files, Function.update_idem, ← hfree, Function.update_eq_self]

/-- Whatever fails on the way, the files are as before. -/
theorem Lawful.commit (hS : S.Lawful) {x : Except Failure Unit}
    (hrun : S.Runs (Files.commit o source document output) s x s') :
    (∃ e, x = .error e ∧ S.files s' = S.files s) ∨
      (x = .ok () ∧ checkEquivalence o source document = .ok () ∧
        S.Replaces s output document s') := by
  obtain ⟨created, s₁, hcreate, hrun₁⟩ := S.of_bind hrun
  cases created with
  | none =>
    obtain ⟨rfl, rfl⟩ := S.of_pure hrun₁
    exact .inl ⟨_, rfl, (hS.create_fails hcreate).files⟩
  | some staged =>
    obtain ⟨p, hfree, hempty⟩ := hS.create_fresh hcreate
    obtain ⟨outcome, s₂, hsettle, hrun₂⟩ := S.of_bind hrun₁
    rcases hS.settle hfree hempty hsettle with ⟨e, file, rfl, hleft⟩ | ⟨rfl, hdone⟩
    · obtain ⟨_, s₃, hdiscard, hrun₃⟩ := S.of_bind hrun₂
      obtain ⟨rfl, rfl⟩ := S.of_pure hrun₃
      refine .inl ⟨e, rfl, ?_⟩
      rw [hS.discard_removes hdiscard hleft.leads_after, hleft.files, Function.update_idem, ← hfree,
        Function.update_eq_self]
    · obtain ⟨rfl, rfl⟩ := S.of_pure hrun₂
      exact .inr ⟨rfl, hdone⟩

/-- What a run into a file leaves: every file as it was, or the verified document in the output. -/
theorem Lawful.hoistTo (hS : S.Lawful) {x : Except Failure Report}
    (hrun : S.Runs (Files.hoistTo o source output) s x s') :
    (∃ e, x = .error e ∧ S.files s' = S.files s) ∨
      ∃ h, x = .ok h.report ∧ hoist o source = .ok h ∧ S.Replaces s output h.document s' := by
  rw [Files.hoistTo] at hrun
  cases htransform : transform o source with
  | error e =>
    rw [htransform] at hrun
    obtain ⟨rfl, rfl⟩ := S.of_pure hrun
    exact .inl ⟨e, rfl, rfl⟩
  | ok h =>
    rw [htransform] at hrun
    obtain ⟨outcome, s₁, hcommit, hrun₁⟩ := S.of_bind hrun
    rcases hS.commit hcommit with ⟨e, rfl, hfiles⟩ | ⟨rfl, hcheck, hreplaces⟩
    · obtain ⟨rfl, rfl⟩ := S.of_pure hrun₁
      exact .inl ⟨e, rfl, hfiles⟩
    · obtain ⟨rfl, rfl⟩ := S.of_pure hrun₁
      refine .inr ⟨h, rfl, ?_, hreplaces⟩
      exact hoist_eq_ok_iff.mpr ⟨htransform, checkEquivalence_eq_ok_iff.mp hcheck⟩

/-! ## Sources -/

/-- Loading a document changes no file. -/
theorem Lawful.load (hS : S.Lawful) {Fault : Type} {x : Except (Failure Fault) String}
    (hrun : S.Runs (Files.load source) s x s') : S.Same s s' := by
  obtain ⟨reading, s₁, hread, hrun₁⟩ := S.of_bind hrun
  have hkept := hS.read_keeps hread
  cases reading with
  | missing | unreadable | text =>
    obtain ⟨-, rfl⟩ := S.of_pure hrun₁
    exact hkept

theorem Lawful.loadSource (hS : S.Lawful) {x : Except (Failure (Network.Fault m)) String}
    (hrun : S.Runs (Files.loadSource source) s x s') : S.Same s s' := by
  rw [Files.loadSource] at hrun
  split at hrun
  next =>
    split at hrun
    next =>
      obtain ⟨-, rfl⟩ := S.of_pure hrun
      exact .refl S _
    next fetch hfetch =>
      obtain ⟨answer, s₁, hanswer, hrun₁⟩ := S.of_bind hrun
      have hkept := hS.fetch_keeps hfetch hanswer
      cases answer with
      | error | ok =>
        obtain ⟨-, rfl⟩ := S.of_pure hrun₁
        exact hkept
  next => exact hS.load hrun

end FileSystem
end InlineSchema
