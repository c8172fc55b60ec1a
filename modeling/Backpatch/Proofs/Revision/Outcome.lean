import Backpatch.Proofs.Elaboration.Types
import Backpatch.Proofs.Output.Alike
import Backpatch.Proofs.Revision.Basic

/-!
# Local names and locations never reach the output

All revisions of a program have one outcome (`Program.compile_revise`): the same text, or the same
error at the same part of the program, under the name that the revision gives. The elaboration
settles this part by part. Names of variables and parameters are gone from the core terms that it
makes, and the names of functions are kept by all revisions, so that the core terms of all revisions
are the same.
-/

namespace Backpatch

open List

/-- The error as it is reported about a revision: the name is renamed, and the location is that of
the part. -/
def SemanticError.revise (r : String → String) (l : Location) : SemanticError → SemanticError
  | undefinedVariable name _ => undefinedVariable (r name) l
  | undefinedFunction name _ => undefinedFunction (r name) l
  | redefinition name _ => redefinition (r name) l
  | typeMismatch _ => typeMismatch l
  | prototypeMismatch name expected _ => prototypeMismatch (r name) expected l
  | unexpectedBreak _ => unexpectedBreak l
  | unexpectedContinue _ => unexpectedContinue l
  | missingEntryPoint => missingEntryPoint
  | literalOutOfRange type text _ => literalOutOfRange type text l

def Failure.revise (r : String → String) (l : Location) : Failure → Failure
  | semantic e => semantic (e.revise r l)
  | internal f => internal f

/-! ## Outcomes of all revisions -/

variable {kept : List String} {α β : Type}

/-- All revisions have the same outcome: a result with the property `Q`, renamed by `act`, or an
error about one part. -/
def Settled (act : (String → String) → α → α) (F : Renaming kept → Positions → Except Failure α)
    (Q : α → Prop) : Prop :=
  (∃ a, Q a ∧ ∀ r m, F r m = .ok (act r.rename a)) ∨
    ∃ failure path, ∀ r m, F r m = .error (Failure.revise r.rename (m path) failure)

namespace Settled

variable {act : (String → String) → α → α} {act' : (String → String) → β → β}
  {F : Renaming kept → Positions → Except Failure α} {Q : α → Prop} {R : β → Prop}

theorem pure (a : α) (h : Q a) (same : ∀ r m, F r m = .ok (act r.rename a)) : Settled act F Q :=
  .inl ⟨a, h, same⟩

theorem error (failure : Failure) (path : Path)
    (same : ∀ r m, F r m = .error (failure.revise r.rename (m path))) : Settled act F Q :=
  .inr ⟨failure, path, same⟩

theorem bind {G : Renaming kept → Positions → α → Except Failure β} (h : Settled act F Q)
    (hG : ∀ a, Q a → Settled act' (fun r m => G r m (act r.rename a)) R) :
    Settled act' (fun r m => F r m >>= G r m) R := by
  rcases h with ⟨a, holds, same⟩ | ⟨failure, path, same⟩
  · simp only [same]
    exact hG a holds
  · refine .error failure path fun r m => ?_
    rw [same]
    rfl

theorem below (h : Settled act F Q) (i : Nat) : Settled act (fun r m => F r (m.below i)) Q := by
  rcases h with ⟨a, holds, same⟩ | ⟨failure, path, same⟩
  · exact .pure a holds fun r m => same r (m.below i)
  · exact .error failure (i :: path) fun r m => same r (m.below i)

theorem require {holds : Bool} (e : SemanticError) (path : Path)
    (h : holds = true → Settled act F Q) :
    Settled act (fun r m => Backpatch.require holds (e.revise r.rename (m path)) >>= fun _ => F r m)
      Q := by
  cases holds with
  | true => exact h rfl
  | false => exact .error (.semantic e) path fun _ _ => rfl

end Settled

/-! ## Environments -/

/-- The names with their meanings, renamed. -/
def renameEntries (r : String → String) (entries : List (String × Meaning)) :
    List (String × Meaning) :=
  entries.map fun entry => (r entry.1, entry.2)

def Env.rename (r : String → String) (e : Env) : Env :=
  { e with here := renameEntries r e.here, outer := renameEntries r e.outer }

/-- The functions among the names are kept. -/
def FunctionsKept (kept : List String) (entries : List (String × Meaning)) : Prop :=
  ∀ name returnType parameters, (name, Meaning.function returnType parameters) ∈ entries →
    name ∈ kept

theorem lookup_renameEntries {r : String → String} (injective : Function.Injective r)
    (entries : List (String × Meaning)) (name : String) :
    (renameEntries r entries).lookup (r name) = entries.lookup name := by
  induction entries with
  | nil => rfl
  | cons entry entries ih =>
    obtain ⟨first, m⟩ := entry
    have same : (r name == r first) = (name == first) := by
      rw [Bool.eq_iff_iff, beq_iff_eq, beq_iff_eq]
      exact injective.eq_iff
    show List.lookup (r name) ((r first, m) :: renameEntries r entries) = _
    rw [lookup_cons, lookup_cons, same, ih]

namespace Env

variable {e : Env}

theorem get?_rename (r : Renaming kept) (e : Env) (name : String) :
    (e.rename r.rename).get? (r.rename name) = e.get? name := by
  unfold get? rename
  rw [← lookup_renameEntries r.injective (e.here ++ e.outer)]
  unfold renameEntries
  rw [map_append]

theorem declares_rename (r : Renaming kept) (e : Env) (name : String) :
    (e.rename r.rename).declares (r.rename name) = e.declares name := by
  unfold declares rename
  rw [lookup_renameEntries r.injective]

theorem inner_rename (r : String → String) (e : Env) (isLoop : Bool) :
    (e.rename r).inner isLoop = (e.inner isLoop).rename r := by
  unfold inner rename renameEntries
  rw [map_append]
  rfl

theorem returnType_rename (r : String → String) (e : Env) :
    (e.rename r).returnType = e.returnType := rfl

/-- The names of functions that can be called are kept. -/
def Kept (kept : List String) (e : Env) : Prop := FunctionsKept kept (e.here ++ e.outer)

theorem Kept.inner (h : e.Kept kept) (isLoop : Bool) : (e.inner isLoop).Kept kept := h

theorem Kept.addVariable (h : e.Kept kept) (name : String) (type : Ty) (pointer : Nat) :
    (e.addVariable name type pointer).Kept kept := by
  intro other returnType parameters mem
  rcases mem_cons.mp mem with eq | mem
  · cases eq
  · exact h other returnType parameters mem

theorem Kept.rename_eq (h : e.Kept kept) (r : Renaming kept) {name : String} {returnType : Ty}
    {parameters : List Ty}
    (found : e.get? name = some (.function returnType parameters)) : r.rename name = name :=
  r.keeps name (h name returnType parameters (mem_of_lookup found))

end Env

/-! ## Expressions -/

theorem Expr.location_revise (r : String → String) (x : Expr) (m : Positions) :
    (x.revise r m).location = m [] := by
  cases x <;> rfl

theorem settled_elaborateNumber (type : Ty) (token : String) (largest : Nat) :
    Settled (fun _ => id) (fun (_ : Renaming kept) m => elaborateNumber type token largest (m []))
      fun _ => True := by
  unfold elaborateNumber
  split
  · exact .require (.literalOutOfRange type token .nowhere) [] fun _ =>
      .pure _ trivial fun _ _ => rfl
  · exact .error (.internal (.notDigits token)) [] fun _ _ => rfl

theorem Literal.settled (value : Literal) :
    Settled (fun _ => id) (fun (_ : Renaming kept) m => value.elaborate (m [])) fun _ => True := by
  cases value with
  | int digits | byte digits =>
    exact (settled_elaborateNumber ..).bind fun _ _ => .pure _ trivial fun _ _ => rfl
  | bool value | string text => exact .pure _ trivial fun _ _ => rfl

theorem Env.settled_resolve (e : Env) (name : String) :
    Settled (fun _ => id) (fun (r : Renaming kept) m =>
      (e.rename r.rename).resolve (r.rename name) (m [])) fun _ => True := by
  unfold Env.resolve
  simp only [get?_rename]
  split
  · exact .pure _ trivial fun _ _ => rfl
  · exact .pure _ trivial fun _ _ => rfl
  · exact .error (.semantic (.undefinedVariable name .nowhere)) [] fun _ _ => rfl

section Expressions

variable {e : Env}

mutual

theorem Expr.settled (he : e.Kept kept) : ∀ x : Expr,
    Settled (fun _ => id) (fun (r : Renaming kept) m =>
      (x.revise r.rename m).elaborate (e.rename r.rename)) fun _ => True
  | .literal l value => value.settled
  | .identifier l name => (e.settled_resolve name).bind fun _ _ => .pure _ trivial fun _ _ => rfl
  | .call l name arguments => by
    unfold Expr.revise Expr.elaborate
    refine (Expr.settledAll he arguments 0).bind fun typed _ => ?_
    simp only [Env.get?_rename]
    split
    · rename_i returnType parameters found
      refine .require (.prototypeMismatch name parameters .nowhere) [] fun _ => ?_
      refine .pure (.call returnType name (Typed.arguments typed parameters)) trivial fun r _ => ?_
      -- The callee is the one name in a core term, and the name of a function is kept.
      rw [he.rename_eq r found]
      rfl
    · exact .error (.semantic (.undefinedFunction name .nowhere)) [] fun _ _ => rfl
  | .not l operand | .cast l target operand => by
    unfold Expr.revise Expr.elaborate
    refine ((operand.settled he).below 0).bind fun typed _ => ?_
    exact .require (.typeMismatch .nowhere) [] fun _ => .pure _ trivial fun _ _ => rfl
  | .and l left right | .or l left right | .arithmetic l operator left right
  | .comparison l operator left right => by
    unfold Expr.revise Expr.elaborate
    refine ((left.settled he).below 0).bind fun x _ =>
      ((right.settled he).below 1).bind fun y _ => ?_
    exact .require (.typeMismatch .nowhere) [] fun _ =>
      .require (.typeMismatch .nowhere) [] fun _ =>
      .pure _ trivial fun _ _ => rfl
  | .conditional l condition thenValue elseValue => by
    unfold Expr.revise Expr.elaborate
    simp only [Expr.location_revise]
    -- A condition of another type is reported where the condition stands.
    refine ((condition.settled he).below 0).bind fun c _ =>
      .require (.typeMismatch .nowhere) [0] fun _ => ?_
    refine ((thenValue.settled he).below 1).bind fun x _ =>
      ((elseValue.settled he).below 2).bind fun y _ => ?_
    exact .require (.typeMismatch .nowhere) [] fun _ => .pure _ trivial fun _ _ => rfl

theorem Expr.settledAll (he : e.Kept kept) : ∀ (xs : List Expr) (i : Nat),
    Settled (fun _ => id) (fun (r : Renaming kept) m => Expr.elaborateAll (e.rename r.rename)
      (Expr.reviseAll r.rename xs i m)) fun _ => True
  | [], _ => .pure _ trivial fun _ _ => rfl
  | x :: xs, i => by
    unfold Expr.reviseAll Expr.elaborateAll
    refine ((x.settled he).below i).bind fun typed _ =>
      (Expr.settledAll he xs (i + 1)).bind fun rest _ => ?_
    exact .pure _ trivial fun _ _ => rfl

end

theorem Expr.settledOption (he : e.Kept kept) (x : Option Expr) :
    Settled (fun _ => id) (fun (r : Renaming kept) m => Expr.elaborateOption (e.rename r.rename)
      (Expr.reviseOption r.rename x m)) fun _ => True := by
  cases x with
  | none => exact .pure _ trivial fun _ _ => rfl
  | some x => exact ((x.settled he).below 0).bind fun _ _ => .pure _ trivial fun _ _ => rfl

end Expressions

/-! ## Statements -/

/-- What a statement is elaborated to, under other names. -/
def renameResult (r : String → String) (result : α × Env × Layout) : α × Env × Layout :=
  (result.1, result.2.1.rename r, result.2.2)

section Statements

mutual

theorem Stmt.settled : ∀ (s : Stmt) (e : Env) (layout : Layout), e.Kept kept →
    Settled renameResult (fun (r : Renaming kept) m =>
      (s.revise r.rename m).elaborate (e.rename r.rename) layout) fun result => result.2.1.Kept kept
  | .declaration l type name value, e, layout, he => by
    unfold Stmt.revise Stmt.elaborate
    simp only [Env.declares_rename]
    refine (Expr.settledOption he value).bind fun typed _ => ?_
    refine .require (.typeMismatch .nowhere) [] fun _ =>
      .require (.typeMismatch .nowhere) [] fun _ => ?_
    refine .require (.redefinition name .nowhere) [] fun _ => ?_
    exact .pure (.declare e.nextSlot layout.registers (typed.map Typed.term),
      e.addVariable name (Ty.ofName type) layout.registers, layout.addVariable e.nextSlot)
      (he.addVariable name (Ty.ofName type) layout.registers) fun _ _ => rfl
  | .assignment l name value, e, layout, he => by
    unfold Stmt.revise Stmt.elaborate
    refine ((value.settled he).below 0).bind fun typed _ =>
      (e.settled_resolve name).bind fun target _ => ?_
    refine .require (.typeMismatch .nowhere) [] fun _ => ?_
    exact .pure (.assign target.1 typed.term, e, layout.assign target.1) he fun _ _ => rfl
  | .expression l value, e, layout, he => by
    unfold Stmt.revise Stmt.elaborate
    exact ((value.settled he).below 0).bind fun typed _ =>
      .pure (typed.action, e, layout) he fun _ _ => rfl
  | .conditional l condition thenBranch elseBranch, e, layout, he => by
    unfold Stmt.revise Stmt.elaborate
    simp only [Expr.location_revise, Env.inner_rename]
    refine ((condition.settled he).below 0).bind fun c _ =>
      .require (.typeMismatch .nowhere) [0] fun _ => ?_
    refine ((thenBranch.settled _ layout (he.inner false)).below 1).bind ?_
    rintro ⟨first, _, layout₁⟩ -
    refine (Stmt.settledElse elseBranch e layout₁ he).bind ?_
    rintro ⟨second, layout₂⟩ -
    cases second with
    | none => exact .pure (.when c.test first, e, layout₂) he fun _ _ => rfl
    | some second => exact .pure (.either c.test first second, e, layout₂) he fun _ _ => rfl
  | .loop l condition body, e, layout, he => by
    unfold Stmt.revise Stmt.elaborate
    simp only [Expr.location_revise, Env.inner_rename]
    refine ((condition.settled he).below 0).bind fun c _ =>
      .require (.typeMismatch .nowhere) [0] fun _ => ?_
    refine ((body.settled _ layout (he.inner true)).below 1).bind ?_
    rintro ⟨body, _, layout'⟩ -
    exact .pure (.loop c.test body, e, layout') he fun _ _ => rfl
  | .break l, e, layout, he => by
    unfold Stmt.revise Stmt.elaborate
    exact .require (.unexpectedBreak .nowhere) [] fun _ =>
      .pure (.break, e, layout) he fun _ _ => rfl
  | .continue l, e, layout, he => by
    unfold Stmt.revise Stmt.elaborate
    exact .require (.unexpectedContinue .nowhere) [] fun _ =>
      .pure (.continue, e, layout) he fun _ _ => rfl
  | .return l value, e, layout, he => by
    unfold Stmt.revise Stmt.elaborate
    simp only [Env.returnType_rename]
    refine (Expr.settledOption he value).bind fun typed _ =>
      .require (.typeMismatch .nowhere) [] fun _ => ?_
    exact .pure (.return (typed.map Typed.term), e, layout) he fun _ _ => rfl
  | .block l body, e, layout, he => by
    unfold Stmt.revise Stmt.elaborate
    simp only [Env.inner_rename]
    refine (Stmt.settledAll body 0 _ layout (he.inner false)).bind ?_
    rintro ⟨body, _, layout'⟩ -
    exact .pure (.block body, e, layout') he fun _ _ => rfl

theorem Stmt.settledElse : ∀ (s : Option Stmt) (e : Env) (layout : Layout), e.Kept kept →
    Settled (fun _ => id) (fun (r : Renaming kept) m =>
      Stmt.elaborateElse (Stmt.reviseElse r.rename s m) (e.rename r.rename) layout) fun _ => True
  | none, e, layout, _ => .pure (none, layout) trivial fun _ _ => rfl
  | some s, e, layout, he => by
    unfold Stmt.reviseElse Stmt.elaborateElse
    simp only [Env.inner_rename]
    refine ((s.settled _ layout (he.inner false)).below 2).bind ?_
    rintro ⟨branch, _, layout'⟩ -
    exact .pure (some branch, layout') trivial fun _ _ => rfl

theorem Stmt.settledAll : ∀ (ss : List Stmt) (i : Nat) (e : Env) (layout : Layout), e.Kept kept →
    Settled renameResult (fun (r : Renaming kept) m =>
      Stmt.elaborateAll (Stmt.reviseAll r.rename ss i m) (e.rename r.rename) layout) fun result =>
      result.2.1.Kept kept
  | [], i, e, layout, he => .pure (.nil, e, layout) he fun _ _ => rfl
  | s :: ss, i, e, layout, he => by
    unfold Stmt.reviseAll Stmt.elaborateAll
    refine ((s.settled e layout he).below i).bind ?_
    rintro ⟨first, e₁, layout₁⟩ he₁
    refine (Stmt.settledAll ss (i + 1) e₁ layout₁ he₁).bind ?_
    rintro ⟨rest, e₂, layout₂⟩ he₂
    exact .pure (.cons first rest, e₂, layout₂) he₂ fun _ _ => rfl

end

end Statements

/-! ## Functions -/

theorem Parameter.map_type_reviseAll (r : String → String) (ps : List Parameter) (i : Nat)
    (m : Positions) : ((Parameter.reviseAll r ps i m).map Parameter.formal).map Builder.Formal.type
      = (ps.map Parameter.formal).map Builder.Formal.type := by
  induction ps generalizing i with
  | nil => rfl
  | cons p ps ih => exact congrArg (Ty.ofName p.type :: ·) (ih (i + 1))

theorem Parameter.settled_require (ps : List Parameter) (i : Nat) :
    Settled (fun _ => id) (fun (r : Renaming kept) m =>
      requireFormals ((Parameter.reviseAll r.rename ps i m).map Parameter.formal)) fun _ =>
        True := by
  induction ps generalizing i with
  | nil => exact .pure () trivial fun _ _ => rfl
  | cons p ps ih =>
    unfold Parameter.reviseAll
    simp only [map_cons, requireFormals, Parameter.formal]
    exact .require (.typeMismatch .nowhere) [i] fun _ => ih (i + 1)

theorem Parameter.settled_bind (ps : List Parameter) (i index : Nat) (e : Env) (he : e.Kept kept) :
    Settled Env.rename (fun (r : Renaming kept) m =>
      bindFormals ((Parameter.reviseAll r.rename ps i m).map Parameter.formal) index
        (e.rename r.rename))
      (Env.Kept kept) := by
  induction ps generalizing i index e with
  | nil => exact .pure e he fun _ _ => rfl
  | cons p ps ih =>
    let e' : Env := { e with here := (p.name, .parameter (Ty.ofName p.type) index) :: e.here }
    have he' : e'.Kept kept := by
      intro name returnType parameters mem
      rcases mem_cons.mp mem with eq | mem
      · cases eq
      · exact he name returnType parameters mem
    have bound := ih (i + 1) (index + 1) e' he'
    have declared : ∀ r : Renaming kept, (e.rename r.rename).declares (r.rename p.name)
        = e.declares p.name :=
      fun r => e.declares_rename r p.name
    unfold Parameter.reviseAll
    simp only [map_cons, bindFormals, Parameter.formal, declared]
    exact .require (.redefinition p.name .nowhere) [i] fun _ => bound

theorem renameEntries_of_kept {entries : List (String × Meaning)}
    (h : ∀ entry ∈ entries, entry.1 ∈ kept)
    (r : Renaming kept) : renameEntries r.rename entries = entries := by
  unfold renameEntries
  refine (map_congr_left fun entry mem => ?_).trans (map_id _)
  rw [r.keeps _ (h entry mem)]
  rfl

/-- The global names are functions that are kept. -/
abbrev GlobalsKept (kept : List String) (globals : List (String × Meaning)) : Prop :=
  ∀ entry ∈ globals, entry.1 ∈ kept

variable {globals : List (String × Meaning)}

theorem FunctionDef.settled_head (f : FunctionDef) (named : f.name ∈ kept)
    (hg : GlobalsKept kept globals) : Settled Env.rename (fun (r : Renaming kept) m =>
      elaborateHead f.name (Ty.ofName f.returnType)
        ((Parameter.reviseAll r.rename f.parameters 0 (m.below 0)).map Parameter.formal)
          (m []) globals)
      (Env.Kept kept) := by
  let outer := (f.name, Meaning.function (Ty.ofName f.returnType)
    ((f.parameters.map Parameter.formal).map Builder.Formal.type)) :: globals
  have houter : GlobalsKept kept outer := forall_mem_cons.mpr ⟨named, hg⟩
  let e : Env := { outer := outer, returnType := Ty.ofName f.returnType }
  have he : e.Kept kept := fun name _ _ mem => houter _ mem
  -- All names around a function are kept, so its environment is the same in all revisions.
  have same : ∀ r : Renaming kept, e.rename r.rename = e := by
    intro r
    show ({ e with here := [], outer := renameEntries r.rename outer } : Env) = e
    rw [renameEntries_of_kept houter]
  have bound := Parameter.settled_bind f.parameters 0 0 e he
  unfold elaborateHead
  simp only [Parameter.map_type_reviseAll]
  refine .require (.typeMismatch .nowhere) [] fun _ => ?_
  refine ((Parameter.settled_require f.parameters 0).below 0).bind fun _ _ => ?_
  cases (globals.lookup f.name).isNone with
  | false =>
    refine .error (.semantic (.redefinition f.name .nowhere)) [] fun r m => ?_
    show _ = Except.error (Failure.semantic (.redefinition (r.rename f.name) (m [])))
    rw [r.keeps f.name named]
    rfl
  | true =>
    simp only [same] at bound
    exact bound.below 0

theorem FunctionDef.settled (f : FunctionDef) (named : f.name ∈ kept)
    (hg : GlobalsKept kept globals) (registers : Nat) :
    Settled (fun _ => id) (fun (r : Renaming kept) m =>
      (f.revise r.rename m).elaborate globals registers)
      fun result => GlobalsKept kept result.2.1 := by
  unfold FunctionDef.revise FunctionDef.elaborate
  simp only [Parameter.map_type_reviseAll]
  refine (f.settled_head named hg).bind fun e he => ?_
  refine ((Stmt.settledAll f.body 0 e _ he).below 1).bind ?_
  rintro ⟨body, _, layout⟩ -
  let parameters := (f.parameters.map Parameter.formal).map Builder.Formal.type
  let routine : Routine :=
    { name := f.name, returnType := Ty.ofName f.returnType, parameters := parameters
      frameSize := layout.frameSize, slots := layout.slots, body := body }
  have hg' : GlobalsKept kept ((f.name, .function (Ty.ofName f.returnType) parameters)
      :: globals) :=
    forall_mem_cons.mpr ⟨named, hg⟩
  exact .pure (routine, _, layout.registers) hg' fun _ _ => rfl

theorem FunctionDef.settledAll (fs : List FunctionDef) (named : ∀ f ∈ fs, f.name ∈ kept) (i : Nat)
    (hg : GlobalsKept kept globals) (registers : Nat) :
    Settled (fun _ => id) (fun (r : Renaming kept) m =>
      FunctionDef.elaborateAll (FunctionDef.reviseAll r.rename fs i m) globals registers) fun _ =>
        True := by
  induction fs generalizing i globals registers with
  | nil => exact .pure ([], globals, registers) trivial fun _ _ => rfl
  | cons f fs ih =>
    obtain ⟨head, tail⟩ := forall_mem_cons.mp named
    unfold FunctionDef.reviseAll FunctionDef.elaborateAll
    refine ((f.settled head hg registers).below i).bind ?_
    rintro ⟨routine, globals₁, registers₁⟩ hg₁
    refine (ih tail (i + 1) hg₁ registers₁).bind ?_
    rintro ⟨routines, globals₂, registers₂⟩ -
    exact .pure (routine :: routines, globals₂, registers₂) trivial fun _ _ => rfl

/-! ## Programs -/

/-- The names that a renaming of local names keeps. -/
def Program.functionNames (p : Program) : List String :=
  "print" :: "printi" :: p.functions.map FunctionDef.name

theorem Program.settled (p : Program) :
    Settled (fun _ => id) (fun (r : Renaming p.functionNames) m => (p.revise r.rename m).elaborate)
      fun _ => True := by
  have named : ∀ f ∈ p.functions, f.name ∈ p.functionNames := fun f mem =>
    mem_cons_of_mem _ (mem_cons_of_mem _ (mem_map_of_mem mem))
  have runtime : GlobalsKept p.functionNames runtimeNames := by
    have two : ∀ entry ∈ runtimeNames, entry.1 ∈ ["print", "printi"] := by decide
    intro entry mem
    exact mem_append_left _ (two entry mem)
  unfold Program.revise Program.elaborate
  refine (FunctionDef.settledAll p.functions named 0 runtime 0).bind ?_
  rintro ⟨routines, globals, registers⟩ -
  exact .require .missingEntryPoint [] fun _ => .pure (routines, registers) trivial fun _ _ => rfl

/-- Only broken rules are semantic errors. -/
theorem Program.compile_of_elaborate_ok {p : Program} {fs : List Routine} {registers : Nat}
    (h : p.elaborate = .ok (fs, registers)) (options : Options) :
    (∃ text, p.compile options = .ok text) ∨ ∃ fault, p.compile options
      = .error (.internal fault) := by
  by_cases clean : ∀ f ∈ fs, Clean f.name
  · obtain ⟨b, -, ok⟩ := compile_of_clean h clean options
    exact .inl ⟨_, ok⟩
  · have unclean : ∃ f ∈ fs, ¬Clean f.name := by simpa using clean
    obtain ⟨f, first⟩ := Routine.exists_first_unclean unclean
    exact .inr ⟨_, compile_of_unclean h first options⟩

/-- A program and all of its revisions compile to the same text, or break the same rule: the program
where a path leads to in it, and each revision where the path leads to in the revision, with the
name that it has there. (An internal error is the same for all.) -/
theorem Program.compile_revise (p : Program) (options : Options) :
    (∃ text, p.compile options = .ok text ∧
      ∀ (r : Renaming p.functionNames) m, (p.revise r.rename m).compile options = .ok text) ∨
    (∃ e path, p.compile options = .error (.semantic (SemanticError.revise id (p.locate path) e)) ∧
      ∀ (r : Renaming p.functionNames) m,
        (p.revise r.rename m).compile options = .error (.semantic (e.revise r.rename (m path)))) ∨
    ∃ fault, p.compile options = .error (.internal fault) ∧
      ∀ (r : Renaming p.functionNames) m, (p.revise r.rename m).compile options
        = .error (.internal fault) := by
  rcases p.settled with ⟨result, -, same⟩ | ⟨failure, path, same⟩
  · have own : p.elaborate = .ok result := by
      have kept : (p.revise id p.locate).elaborate = .ok result := same (.same _) p.locate
      rwa [p.revise_locate] at kept
    have equal : ∀ (r : Renaming p.functionNames) m, (p.revise r.rename m).compile options
        = p.compile options :=
      fun r m => compile_congr ((same r m).trans own.symm) options
    rcases compile_of_elaborate_ok own options with ⟨text, ok⟩ | ⟨fault, failed⟩
    · exact .inl ⟨text, ok, fun r m => (equal r m).trans ok⟩
    · exact .inr (.inr ⟨fault, failed, fun r m => (equal r m).trans failed⟩)
  · have own : p.elaborate = .error (failure.revise id (p.locate path)) := by
      have kept : (p.revise id p.locate).elaborate = .error (failure.revise id (p.locate path)) :=
        same (.same _) p.locate
      rwa [p.revise_locate] at kept
    cases failure with
    | semantic e =>
      exact .inr (.inl ⟨e, path, compile_of_elaborate_error own options,
        fun r m => compile_of_elaborate_error (same r m) options⟩)
    | internal fault =>
      exact .inr (.inr ⟨fault, compile_of_elaborate_error own options,
        fun r m => compile_of_elaborate_error (same r m) options⟩)

end Backpatch
