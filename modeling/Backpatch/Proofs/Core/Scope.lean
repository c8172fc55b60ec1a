import Backpatch.Proofs.Core.Code

/-!
# Scopes of core terms

What a core term may refer to. A term reads only variables that are *live*, that is declared before
it in a block around it, and parameters of its function; it calls only functions that are known. An
action moreover assigns only to what has an address, declares a variable at a place of the frame
that no live variable has, and leaves only a loop that is around it.
-/

namespace Backpatch

/-- The variables that can be reached: the number of the register with the address of each, and its
place in the frame. -/
abbrev Live := List (Nat × Nat)

def Arguments.types : Arguments → List IrType
  | .nil => []
  | .cons type _ rest => type :: rest.types

/-- The place is that of a live variable or of a parameter. -/
def Place.Reached (frame : Frame) (live : Live) : Place → Prop
  | .variable pointer => ∃ offset, (pointer, offset) ∈ live
  | .parameter index => index < frame.slots.length

/-- The place has an address. -/
def Place.Stored (frame : Frame) : Place → Prop
  | .variable _ => True
  | .parameter index => ∃ slot, frame.slots[index]? = some (some slot)

/-- What is known of the functions that can be called: name, type of the result, types of the
parameters. -/
abbrev Signatures := String → IrType → List IrType → Prop

mutual

/-- Every place that is read fulfils `P`, and every function that is called is known. -/
def Term.All (P : Place → Prop) (Q : Signatures) : Term → Prop
  | .number _ | .text _ => True
  | .read place => P place
  | .call name result arguments => Q name result arguments.types ∧ arguments.All P Q
  | .truth test => test.All P Q
  | .arithmetic _ _ left right => left.All P Q ∧ right.All P Q
  | .cut operand | .same operand => operand.All P Q
  | .choice _ condition thenValue elseValue =>
    condition.All P Q ∧ thenValue.All P Q ∧ elseValue.All P Q

def Test.All (P : Place → Prop) (Q : Signatures) : Test → Prop
  | .constant _ => True
  | .read place => P place
  | .call name arguments => Q name .i32 arguments.types ∧ arguments.All P Q
  | .not operand | .same operand => operand.All P Q
  | .and left right | .or left right => left.All P Q ∧ right.All P Q
  | .compare _ left right => left.All P Q ∧ right.All P Q
  | .choice condition thenTest elseTest =>
    condition.All P Q ∧ thenTest.All P Q ∧ elseTest.All P Q

def Arguments.All (P : Place → Prop) (Q : Signatures) : Arguments → Prop
  | .nil => True
  | .cons _ value rest => value.All P Q ∧ rest.All P Q

end

mutual

theorem Term.All.imp {P P' : Place → Prop} {Q Q' : Signatures} (hP : ∀ p, P p → P' p)
    (hQ : ∀ n r ps, Q n r ps → Q' n r ps) : ∀ {t : Term}, t.All P Q → t.All P' Q'
  | .number _, _ | .text _, _ => trivial
  | .read _, h => hP _ h
  | .call _ _ _, h => ⟨hQ _ _ _ h.1, Arguments.All.imp hP hQ h.2⟩
  | .truth _, h => Test.All.imp hP hQ h
  | .arithmetic _ _ _ _, h => ⟨Term.All.imp hP hQ h.1, Term.All.imp hP hQ h.2⟩
  | .cut a, h | .same a, h => Term.All.imp hP hQ (t := a) h
  | .choice _ _ _ _, h =>
    ⟨Test.All.imp hP hQ h.1, Term.All.imp hP hQ h.2.1, Term.All.imp hP hQ h.2.2⟩

theorem Test.All.imp {P P' : Place → Prop} {Q Q' : Signatures} (hP : ∀ p, P p → P' p)
    (hQ : ∀ n r ps, Q n r ps → Q' n r ps) : ∀ {t : Test}, t.All P Q → t.All P' Q'
  | .constant _, _ => trivial
  | .read _, h => hP _ h
  | .call _ _, h => ⟨hQ _ _ _ h.1, Arguments.All.imp hP hQ h.2⟩
  | .not a, h | .same a, h => Test.All.imp hP hQ (t := a) h
  | .and _ _, h | .or _ _, h => ⟨Test.All.imp hP hQ h.1, Test.All.imp hP hQ h.2⟩
  | .compare _ _ _, h => ⟨Term.All.imp hP hQ h.1, Term.All.imp hP hQ h.2⟩
  | .choice _ _ _, h =>
    ⟨Test.All.imp hP hQ h.1, Test.All.imp hP hQ h.2.1, Test.All.imp hP hQ h.2.2⟩

theorem Arguments.All.imp {P P' : Place → Prop} {Q Q' : Signatures} (hP : ∀ p, P p → P' p)
    (hQ : ∀ n r ps, Q n r ps → Q' n r ps) : ∀ {a : Arguments}, a.All P Q → a.All P' Q'
  | .nil, _ => trivial
  | .cons _ _ _, h => ⟨Term.All.imp hP hQ h.1, Arguments.All.imp hP hQ h.2⟩

end

/-- What an action declares for the actions after it. -/
def Action.declared : Action → Live
  | .declare offset pointer _ => [(pointer, offset)]
  | _ => []

/-- A new variable gets a place in the frame, and neither its place nor its register is that of a
live variable. The register is below the limit, above which registers hold values, and is not that
of a parameter. -/
structure Live.Free (live : Live) (frame : Frame) (limit pointer offset : Nat) : Prop where
  inFrame : (offset : Int) < frame.size
  low : pointer < limit
  newPointer : ∀ o, (pointer, o) ∉ live
  newOffset : ∀ p, (p, offset) ∉ live
  notSlot : some (.temp pointer) ∉ frame.slots

section

variable (frame : Frame) (limit : Nat) (Q : Signatures)

mutual

/-- The action refers only to what is live, and to functions that are known; `inLoop` says whether a
loop is around it. -/
def Action.Scoped (inLoop : Bool) (live : Live) : Action → Prop
  | .declare offset pointer none => live.Free frame limit pointer offset
  | .declare offset pointer (some value) =>
    live.Free frame limit pointer offset ∧ value.All (Place.Reached frame live) Q
  | .assign place value =>
    place.Reached frame live ∧ place.Stored frame ∧ value.All (Place.Reached frame live) Q
  | .drop value => value.All (Place.Reached frame live) Q
  | .run name arguments =>
    Q name .void arguments.types ∧ arguments.All (Place.Reached frame live) Q
  | .check condition => condition.All (Place.Reached frame live) Q
  | .when condition body =>
    condition.All (Place.Reached frame live) Q ∧ body.Scoped inLoop live
  | .either condition thenBranch elseBranch =>
    condition.All (Place.Reached frame live) Q ∧ thenBranch.Scoped inLoop live ∧
      elseBranch.Scoped inLoop live
  | .loop condition body =>
    condition.All (Place.Reached frame live) Q ∧ body.Scoped true live
  | .break | .continue => inLoop = true
  | .return none => frame.returnType = .void
  | .return (some value) =>
    frame.returnType ≠ .void ∧ value.All (Place.Reached frame live) Q
  | .block body => body.Scoped inLoop live

def Actions.Scoped (inLoop : Bool) (live : Live) : Actions → Prop
  | .nil => True
  | .cons first rest =>
    first.Scoped inLoop live ∧ rest.Scoped inLoop (first.declared ++ live)

end

end

section

variable {frame : Frame} {limit : Nat} {Q Q' : Signatures}

mutual

theorem Action.Scoped.imp (hQ : ∀ n r ps, Q n r ps → Q' n r ps) {inLoop : Bool} {live : Live} :
    ∀ {a : Action}, a.Scoped frame limit Q inLoop live → a.Scoped frame limit Q' inLoop live
  | .declare _ _ none, h | .break, h | .continue, h | .return none, h => h
  | .declare _ _ (some _), h | .return (some _), h => ⟨h.1, h.2.imp (fun _ => id) hQ⟩
  | .assign _ _, h => ⟨h.1, h.2.1, h.2.2.imp (fun _ => id) hQ⟩
  | .drop t, h => Term.All.imp (t := t) (fun _ => id) hQ h
  | .run _ _, h => ⟨hQ _ _ _ h.1, h.2.imp (fun _ => id) hQ⟩
  | .check t, h => Test.All.imp (t := t) (fun _ => id) hQ h
  | .when _ _, h | .loop _ _, h => ⟨h.1.imp (fun _ => id) hQ, h.2.imp hQ⟩
  | .either _ _ _, h => ⟨h.1.imp (fun _ => id) hQ, h.2.1.imp hQ, h.2.2.imp hQ⟩
  | .block as, h => Actions.Scoped.imp (a := as) hQ h

theorem Actions.Scoped.imp (hQ : ∀ n r ps, Q n r ps → Q' n r ps) {inLoop : Bool} {live : Live} :
    ∀ {a : Actions}, a.Scoped frame limit Q inLoop live → a.Scoped frame limit Q' inLoop live
  | .nil, _ => trivial
  | .cons _ _, h => ⟨h.1.imp hQ, h.2.imp hQ⟩

end

end

/-- The body of the function refers only to its parameters, its variables and known functions.
Registers with addresses are below the limit. -/
structure Routine.Scoped (f : Routine) (limit : Nat) (Q : Signatures) : Prop where
  result : f.returnType.ir? ≠ none
  parameters : ∀ type ∈ f.parameters, type.ir? ≠ none
  slots : f.slots.length = f.parameters.length
  low : ∀ (i r : Nat), f.slots[i]? = some (some r) → r < limit
  distinct : ∀ (i j r : Nat), f.slots[i]? = some (some r) → f.slots[j]? = some (some r) → i = j
  body : f.body.Scoped f.frame limit Q false []

theorem Routine.Scoped.imp {f : Routine} {limit : Nat} {Q Q' : Signatures}
    (h : f.Scoped limit Q) (hQ : ∀ n r ps, Q n r ps → Q' n r ps) : f.Scoped limit Q' :=
  ⟨h.result, h.parameters, h.slots, h.low, h.distinct, h.body.imp hQ⟩

end Backpatch
