import Backpatch.Proofs.Core.Code

/-!
# Reading the code of core terms

The lines of the code, read one after the other. A reader is at each moment inside a block or
between two (`Position`): a block is a row of lines that ends where control goes elsewhere, and
every line between two blocks is a label. The reader also knows which register, label and constant
will be the next one to appear, and which registers with addresses are still to come (`Reading`).

Code of a term is read from inside a block to inside a block, since its value is used there; code of
a test or of an action is read from inside a block to the end of one. All names that are free before
the code and not behind it appear in order. This holds of every part, and by that alone of what is
put together from the parts (`Routine.read_code`).
-/

namespace Backpatch

open List

/-! ## Lines by their place in a block -/

/-- The register is written as one. -/
def Register.isLocal : Register → Bool
  | named text => text.toList.head? == some '%'
  | _ => true

namespace Instr

/-- The register that the line gives a value. -/
def result? : Instr → Option Register
  | allocaFrame _ => some .frame
  | allocaSlot r | load r _ | compute r .. | compare r .. | phi r .. | stringAddress
    r .. | slotAddress r ..
  | call (some (r, _)) .. => some r
  | _ => none

/-- Control does not go on to the next line. -/
def isTerminator : Instr → Bool
  | jump _ | branch .. | ret _ => true
  | _ => false

/-- The line stands inside a block, and control goes on behind it. -/
def isInner : Instr → Bool
  | define .. | close | blank | label _ | jump _ | branch .. | ret _ | verbatim .. => false
  | i => i.result?.all Register.isLocal

end Instr

/-- Where a walk through the lines is: in a block that has not ended yet, or behind the end of
one. -/
inductive Position
  | inside
  | between
  deriving DecidableEq, Repr

namespace Position

/-- Where the walk is behind a line, if the line may stand here. -/
def next : Position → Instr → Option Position
  | inside, i => if i.isTerminator then some between else if i.isInner then some inside else none
  | between, .label (.numbered _) => some inside
  | between, _ => none

/-- Where the walk is behind the lines. -/
def walk (p : Position) (lines : List Instr) : Option Position := lines.foldlM next p

@[simp] theorem walk_cons (p : Position) (i : Instr) (lines : List Instr) :
    p.walk (i :: lines) = (p.next i).bind (walk · lines) := rfl

@[simp] theorem walk_append (p : Position) (xs ys : List Instr) :
    p.walk (xs ++ ys) = (p.walk xs).bind (walk · ys) := foldlM_append

/-- Behind a line control either goes on in the block, or the block has ended, or one begins. -/
theorem next_eq_some {p q : Position} {i : Instr} (h : p.next i = some q) :
    p = inside ∧ i.isTerminator = true ∧ q = between ∨ p = inside ∧ i.isInner = true ∧ q = inside ∨
      p = between ∧ (∃ n, i = .label (.numbered n)) ∧ q = inside := by
  cases p with
  | inside =>
    simp only [next] at h
    split at h
    · rename_i terminator
      exact .inl ⟨rfl, terminator, (Option.some.inj h).symm⟩
    · split at h
      · rename_i inner
        exact .inr (.inl ⟨rfl, inner, (Option.some.inj h).symm⟩)
      · cases h
  | between =>
    unfold next at h
    split at h
    · rename_i eq
      cases eq
    · exact .inr (.inr ⟨rfl, ⟨_, rfl⟩, (Option.some.inj h).symm⟩)
    · cases h

end Position

/-! ## Readings -/

/-- What a reader of the code knows between two lines: where it is, which names come next, and the
registers with addresses that are still to come. -/
structure Reading where
  position : Position
  names : NameSupply
  addresses : List Register

namespace Reading

/-- The names that are left when the register is the next one with an address. -/
def take (r : Reading) (v : Register) : Option (NameSupply × List Register) :=
  if r.addresses.head? = some v then some (r.names, r.addresses.tail) else none

/-- What the reader knows of the names behind a line, if the line has the names that come next. -/
def pass (r : Reading) : Instr → Option (NameSupply × List Register)
  | .label l => if l = r.names.label then some (r.names.nextLabel, r.addresses) else none
  | .load v _ | .compute v .. | .compare v .. | .phi v .. | .call (some (v, _)) .. =>
    if v = r.names.register then some (r.names.nextRegister, r.addresses) else none
  | .stringAddress v _ constant =>
    if v = r.names.register ∧ constant = r.names.global then
      some (r.names.nextGlobal.nextRegister, r.addresses)
    else none
  | .allocaFrame _ => r.take .frame
  | .allocaSlot v | .slotAddress v .. => r.take v
  | _ => some (r.names, r.addresses)

def next (r : Reading) (i : Instr) : Option Reading := do
  let position ← r.position.next i
  let (names, addresses) ← r.pass i
  return ⟨position, names, addresses⟩

/-- What the reader knows behind the lines. -/
def read (r : Reading) (lines : List Instr) : Option Reading := lines.foldlM next r

@[simp] theorem read_nil (r : Reading) : r.read [] = some r := rfl

@[simp] theorem read_cons (r : Reading) (i : Instr) (lines : List Instr) :
    r.read (i :: lines) = (r.next i).bind (read · lines) := rfl

@[simp] theorem read_append (r : Reading) (xs ys : List Instr) :
    r.read (xs ++ ys) = (r.read xs).bind (read · ys) := foldlM_append

section Lines

variable (s : NameSupply) (as : List Register)

@[simp] theorem next_label : next ⟨.between, s, as⟩ (.label s.label)
    = some ⟨.inside, s.nextLabel, as⟩ := by
  simp [next, pass, Position.next, NameSupply.label]

@[simp] theorem next_jump (target : Target) :
    next ⟨.inside, s, as⟩ (.jump target) = some ⟨.between, s, as⟩ := rfl

@[simp] theorem next_branch (condition : Register) (onTrue onFalse : Target) :
    next ⟨.inside, s, as⟩ (.branch condition onTrue onFalse) = some ⟨.between, s, as⟩ := rfl

@[simp] theorem next_ret (value : Option (IrType × Operand)) :
    next ⟨.inside, s, as⟩ (.ret value) = some ⟨.between, s, as⟩ := rfl

@[simp] theorem next_store (value : Operand) (pointer : Register) :
    next ⟨.inside, s, as⟩ (.store value pointer) = some ⟨.inside, s, as⟩ := rfl

@[simp] theorem next_callVoid (callee : String) (arguments : List (IrType × Operand)) :
    next ⟨.inside, s, as⟩ (.call none callee arguments) = some ⟨.inside, s, as⟩ := rfl

theorem next_value {i : Instr} (position : Position.inside.next i = some .inside)
    (passes : pass ⟨.inside, s, as⟩ i
      = if s.register = s.register then some (s.nextRegister, as) else none) :
    next ⟨.inside, s, as⟩ i = some ⟨.inside, s.nextRegister, as⟩ := by
  unfold next
  rw [position, passes, if_pos rfl]
  rfl

@[simp] theorem next_load (pointer : Register) :
    next ⟨.inside, s, as⟩ (.load s.register pointer) = some ⟨.inside, s.nextRegister, as⟩ :=
  next_value s as rfl rfl

@[simp] theorem next_compute (opcode : Opcode) (left right : Operand) :
    next ⟨.inside, s, as⟩ (.compute s.register opcode left right)
      = some ⟨.inside, s.nextRegister, as⟩ :=
  next_value s as rfl rfl

@[simp] theorem next_compare (predicate : Predicate) (left right : Operand) :
    next ⟨.inside, s, as⟩ (.compare s.register predicate left right)
      = some ⟨.inside, s.nextRegister, as⟩ :=
  next_value s as rfl rfl

@[simp] theorem next_phi (type : IrType) (first second : Operand) (a b : Label) :
    next ⟨.inside, s, as⟩ (.phi s.register type first a second b)
      = some ⟨.inside, s.nextRegister, as⟩ :=
  next_value s as rfl rfl

@[simp] theorem next_call (type : IrType) (callee : String) (arguments : List (IrType × Operand)) :
    next ⟨.inside, s, as⟩ (.call (some (s.register, type)) callee arguments)
      = some ⟨.inside, s.nextRegister, as⟩ :=
  next_value s as rfl rfl

@[simp] theorem next_stringAddress (length : Nat) :
    next ⟨.inside, s, as⟩ (.stringAddress s.register length s.global)
      = some ⟨.inside, s.nextGlobal.nextRegister, as⟩ := by
  simp [next, pass, Position.next, NameSupply.register, Instr.isTerminator, Instr.isInner,
    Instr.result?, Register.isLocal]

theorem next_address {i : Instr} {v : Register} (position : Position.inside.next i = some .inside)
    (passes : pass ⟨.inside, s, v :: as⟩ i = take ⟨.inside, s, v :: as⟩ v) :
    next ⟨.inside, s, v :: as⟩ i = some ⟨.inside, s, as⟩ := by
  unfold next
  rw [position, passes]
  simp [take]

@[simp] theorem next_slotAddress (pointer : Nat) (size offset : Int) :
    next ⟨.inside, s, .temp pointer :: as⟩ (.slotAddress (.temp pointer) size offset)
      = some ⟨.inside, s, as⟩ :=
  next_address s as rfl rfl

@[simp] theorem next_allocaSlot (slot : Nat) :
    next ⟨.inside, s, .temp slot :: as⟩ (.allocaSlot (.temp slot)) = some ⟨.inside, s, as⟩ :=
  next_address s as rfl rfl

@[simp] theorem next_allocaFrame (size : Int) :
    next ⟨.inside, s, .frame :: as⟩ (.allocaFrame size) = some ⟨.inside, s, as⟩ :=
  next_address s as rfl rfl

end Lines

/-- A reader is in blocks. -/
theorem walk_of_read {r r' : Reading} {lines : List Instr} (h : r.read lines = some r') :
    r.position.walk lines = some r'.position := by
  induction lines generalizing r with
  | nil =>
    cases h
    rfl
  | cons i lines ih =>
    rw [read_cons] at h
    obtain ⟨next, here, h⟩ := Option.bind_eq_some_iff.mp h
    obtain ⟨position, moved, here⟩ := Option.bind_eq_some_iff.mp here
    obtain ⟨names, -, here⟩ := Option.bind_eq_some_iff.mp here
    obtain rfl := Option.some.inj here
    rw [Position.walk_cons, moved]
    exact ih h

end Reading

open Reading Step

/-! ## Parts -/

attribute [local simp] instr map_instr_bind map_instr_lift Term.code Test.code
  Action.code fallThrough

section Parts

variable (as : List Register)

theorem read_nonzero {c : TermCode} {s : NameSupply}
    (h : read ⟨.inside, s, as⟩ (c.steps.map (instr noExits)) = some ⟨.inside, c.names, as⟩)
    (ρ : Bool → Target) :
    read ⟨.inside, s, as⟩ (c.nonzero.steps.map (instr ρ))
      = some ⟨.between, c.nonzero.names, as⟩ := by
  simp [TermCode.nonzero, branchOn, -map_map, h]

theorem read_materialize {c : Code Bool} {s : NameSupply}
    (h : ∀ ρ, read ⟨.inside, s, as⟩ (c.steps.map (instr ρ)) = some ⟨.between, c.names, as⟩)
    (ρ : Empty → Target) :
    read ⟨.inside, s, as⟩ (c.materialize.steps.map (instr ρ))
      = some ⟨.inside, c.materialize.names, as⟩ := by
  simp [Code.materialize, -map_map, h]

theorem read_computeCode (operator : Arithmetic) (type : Ty) (left right : Register)
    (s : NameSupply) (ρ : Empty → Target) :
    read ⟨.inside, s, as⟩ ((computeCode operator type left right s).steps.map (instr ρ))
      = some ⟨.inside, (computeCode operator type left right s).names, as⟩ := by
  unfold computeCode
  dsimp only
  split <;> simp [cutCode]

theorem read_arithmeticCode (operator : Arithmetic) (type : Ty) (left right : Register)
    (s : NameSupply) (ρ : Empty → Target) :
    read ⟨.inside, s, as⟩ ((arithmeticCode operator type left right s).steps.map (instr ρ))
      = some ⟨.inside, (arithmeticCode operator type left right s).names, as⟩ := by
  unfold arithmeticCode
  split
  · simp [guardCode, read_computeCode]
  · exact read_computeCode as operator type left right s ρ

theorem Place.read_code (frame : Frame) (place : Place) (s : NameSupply) (ρ : Empty → Target) :
    read ⟨.inside, s, as⟩ ((place.code frame s).steps.map (instr ρ))
      = some ⟨.inside, (place.code frame s).names, as⟩ := by
  cases place with
  | «variable» pointer => simp [Place.code, loadCode]
  | parameter index =>
    unfold Place.code
    dsimp only
    split <;> simp [loadCode]

end Parts

/-! ## Terms and tests -/

variable {frame : Frame}

mutual

theorem Term.read_code (s : NameSupply) (as : List Register) (ρ : Empty → Target) : ∀ t : Term,
    read ⟨.inside, s, as⟩ ((t.code frame s).steps.map (instr ρ))
      = some ⟨.inside, (t.code frame s).names, as⟩
  | .number _ | .text _ => by simp
  | .read place => place.read_code as frame s ρ
  | .call _ _ arguments => by simp [arguments.read_code]
  | .truth test => read_materialize as (test.read_code s as) ρ
  | .arithmetic _ _ left right => by simp [left.read_code, right.read_code, read_arithmeticCode]
  | .cut operand => by simp [cutCode, operand.read_code]
  | .same operand => operand.read_code s as ρ
  | .choice _ condition thenValue elseValue => by
    simp [-map_map, condition.read_code, thenValue.read_code, elseValue.read_code]

theorem Test.read_code (s : NameSupply) (as : List Register) (ρ : Bool → Target) : ∀ t : Test,
    read ⟨.inside, s, as⟩ ((t.code frame s).steps.map (instr ρ))
      = some ⟨.between, (t.code frame s).names, as⟩
  | .constant _ => by simp
  | .read place => read_nonzero as (place.read_code as frame s noExits) ρ
  | .call _ arguments => by
    refine read_nonzero as ?_ ρ
    simp [arguments.read_code]
  | .not operand => by simp [-map_map, operand.read_code]
  | .and left right | .or left right => by simp [-map_map, left.read_code, right.read_code]
  | .compare _ left right => by simp [branchOn, -map_map, left.read_code, right.read_code]
  | .same operand => operand.read_code s as ρ
  | .choice condition thenTest elseTest => by
    simp [-map_map, condition.read_code, thenTest.read_code, elseTest.read_code]

theorem Arguments.read_code (s : NameSupply) (as : List Register) (ρ : Empty → Target) :
    ∀ a : Arguments, read ⟨.inside, s, as⟩ ((a.code frame s).steps.map (instr ρ))
      = some ⟨.inside, (a.code frame s).names, as⟩
  | .nil => by simp [Arguments.code]
  | .cons _ value rest => by simp [Arguments.code, value.read_code, rest.read_code]

end

/-! ## Actions -/

mutual

/-- The registers with the addresses of the variables that are declared, in order. -/
def Action.pointers : Action → List Nat
  | .declare _ pointer _ => [pointer]
  | .when _ body | .loop _ body => body.pointers
  | .either _ thenBranch elseBranch => thenBranch.pointers ++ elseBranch.pointers
  | .block body => body.pointers
  | .assign .. | .drop _ | .run .. | .check _ | .break | .continue | .return _ => []

def Actions.pointers : Actions → List Nat
  | .nil => []
  | .cons first rest => first.pointers ++ rest.pointers

end

attribute [local simp] Action.pointers

mutual

theorem Action.read_code (s : NameSupply) (as : List Register) (ρ : Leave → Target) : ∀ a : Action,
    read ⟨.inside, s, a.pointers.map .temp ++ as⟩ ((a.code frame s).steps.map (instr ρ))
      = some ⟨.between, (a.code frame s).names, as⟩
  | .declare _ _ none => by simp
  | .declare _ _ (some value) | .assign _ value | .drop value => by
    simp [-map_map, value.read_code]
  | .run _ arguments => by simp [-map_map, arguments.read_code]
  | .check condition => by simp [-map_map, condition.read_code]
  | .when condition body | .loop condition body => by
    simp [-map_map, condition.read_code, body.read_code]
  | .either condition thenBranch elseBranch => by
    simp [-map_map, condition.read_code, thenBranch.read_code, elseBranch.read_code]
  | .break | .continue | .return none => by simp
  | .return (some value) => by simp [-map_map, value.read_code]
  | .block .nil => by simp [Actions.pointers]
  | .block (.cons first rest) =>
    Actions.read_code (.cons first rest) Actions.noConfusion s as ρ

theorem Actions.read_code : ∀ (a : Actions), a ≠ .nil → ∀ (s : NameSupply) (as : List Register)
    (ρ : Leave → Target),
    read ⟨.inside, s, a.pointers.map .temp ++ as⟩ ((a.code frame s).steps.map (instr ρ))
      = some ⟨.between, (a.code frame s).names, as⟩
  | .nil, h, _, _, _ => absurd rfl h
  | .cons first .nil, _, s, as, ρ => by simp [Actions.code, Actions.pointers, first.read_code]
  | .cons first (.cons second rest), _, s, as, ρ => by
    rw [Actions.pointers]
    simp [Actions.code, -map_map, first.read_code,
      Actions.read_code (.cons second rest) Actions.noConfusion]

end

/-! ## Functions -/

namespace Routine

/-- The registers of a function that hold addresses, in the order of its lines. -/
def addresses (f : Routine) : List Register :=
  (if 0 < f.frameSize then [.frame] else []) ++
    ((f.slots.filterMap id).map .temp ++ f.body.pointers.map .temp)

theorem read_spillLines (index : Nat) (slots : List (Option Nat)) (s : NameSupply)
    (as : List Register) :
    read ⟨.inside, s, (slots.filterMap id).map .temp ++ as⟩ (spillLines index slots)
      = some ⟨.inside, s, as⟩ := by
  induction slots generalizing index with
  | nil => rfl
  | cons slot slots ih =>
    cases slot with
    | none => exact ih (index + 1)
    | some slot =>
      have first : (some slot :: slots).filterMap id = slot :: slots.filterMap id := rfl
      rw [spillLines, first, map_cons, cons_append, read_cons, next_allocaSlot]
      exact ih (index + 1)

theorem read_frameLines (f : Routine) (s : NameSupply) (as : List Register) :
    read ⟨.inside, s, (if 0 < f.frameSize then [.frame] else []) ++ as⟩ f.frameLines
      = some ⟨.inside, s, as⟩ := by
  unfold frameLines
  split <;> simp

theorem read_endLines (f : Routine) (s : NameSupply) (as : List Register) :
    read ⟨.inside, s, as⟩ f.endLines = some ⟨.between, s, as⟩ := by
  unfold endLines
  split <;> simp

/-- The lines of a function are blocks, with all its names in order. -/
theorem read_code (f : Routine) (s : NameSupply) :
    read ⟨.inside, s, f.addresses⟩ ((f.code s).steps.map (instr noExits))
      = some ⟨.between, (f.code s).names, []⟩ := by
  have lines : ∀ xs : List Instr, (xs.map Step.line).map (instr noExits) = xs := fun xs => by
    rw [map_map]
    exact map_id _
  have body : ∀ ρ, read ⟨.inside, s, f.body.pointers.map .temp⟩
      ((Action.code f.frame (.block f.body) s).steps.map (instr ρ))
        = some ⟨.between, (Action.code f.frame (.block f.body) s).names, []⟩ := by
    intro ρ
    have whole := @Action.read_code f.frame s [] ρ (.block f.body)
    rw [List.append_nil] at whole
    exact whole
  unfold code addresses
  rw [map_append, map_append, lines, lines, map_instr_bind]
  simp only [read_append, read_frameLines, Option.bind_some, read_spillLines, body,
    read_cons, next_label, read_endLines]

end Routine

end Backpatch
