import Backpatch.Proofs.Core.Reading
import Mathlib.Data.List.Pairwise

/-!
# Names in the code of core terms

Which names the lines of the code give a meaning and which ones they rely on. Of the registers and
labels that are numbered, each that is free before the code and not behind it is given exactly once
(`Reading.labels_of_read`, `Reading.results_of_read`).
-/

namespace Backpatch

open List

/-! ## What lines mention -/

def Operand.registers : Operand → List Register
  | register r => [r]
  | number _ => []

namespace Instr

/-- The registers that the line reads where it stands. -/
def uses : Instr → List Register
  | store value pointer => value.registers ++ [pointer]
  | load _ pointer => [pointer]
  | compute _ _ left right | compare _ _ left right => left.registers ++ right.registers
  | branch condition .. => [condition]
  | call _ _ arguments | callVariadic _ _ _ arguments => arguments.flatMap fun a => a.2.registers
  | ret (some (_, value)) => value.registers
  | slotAddress .. => [.frame]
  | _ => []

/-- The values of a line that are chosen by the block that control comes from. -/
def arrivals : Instr → List (Label × Operand)
  | phi _ _ first firstFrom second secondFrom => [(firstFrom, first), (secondFrom, second)]
  | _ => []

/-- The labels that the line can go to. -/
def targets : Instr → List Label
  | jump target => target.toList
  | branch _ onTrue onFalse => onTrue.toList ++ onFalse.toList
  | _ => []

/-- The label that the line is. -/
def label? : Instr → Option Label
  | label l => some l
  | _ => none

/-- All registers that the line reads. -/
def reads (i : Instr) : List Register := i.uses ++ i.arrivals.flatMap fun a => a.2.registers

/-- All labels that the line refers to. -/
def refers (i : Instr) : List Label := i.targets ++ i.arrivals.map Prod.fst

end Instr

def labelsOf (lines : List Instr) : List Label := lines.filterMap Instr.label?

def targetsOf (lines : List Instr) : List Label := lines.flatMap Instr.targets

def refersOf (lines : List Instr) : List Label := lines.flatMap Instr.refers

def resultsOf (lines : List Instr) : List Register := lines.filterMap Instr.result?

def readsOf (lines : List Instr) : List Register := lines.flatMap Instr.reads

section Lists

variable {i : Instr} {l : Label} {r : Register} {xs ys : List Instr}

@[simp, grind =] theorem labelsOf_nil : labelsOf [] = [] := rfl

@[simp, grind =] theorem labelsOf_append : labelsOf (xs ++ ys) = labelsOf xs ++ labelsOf ys :=
  filterMap_append

@[simp, grind =] theorem labelsOf_cons : labelsOf (i :: xs) = i.label?.toList ++ labelsOf xs := by
  unfold labelsOf
  cases h : i.label? with
  | none => exact filterMap_cons_none h
  | some l => exact filterMap_cons_some h

@[simp, grind =] theorem targetsOf_nil : targetsOf [] = [] := rfl

@[simp, grind =] theorem targetsOf_cons : targetsOf (i :: xs) = i.targets ++ targetsOf xs := rfl

@[simp, grind =] theorem targetsOf_append : targetsOf (xs ++ ys) = targetsOf xs ++ targetsOf ys :=
  flatMap_append

@[simp, grind =] theorem refersOf_nil : refersOf [] = [] := rfl

@[simp, grind =] theorem refersOf_cons : refersOf (i :: xs) = i.refers ++ refersOf xs := rfl

@[simp, grind =] theorem refersOf_append : refersOf (xs ++ ys) = refersOf xs ++ refersOf ys :=
  flatMap_append

@[simp, grind =] theorem resultsOf_nil : resultsOf [] = [] := rfl

@[simp, grind =] theorem resultsOf_append : resultsOf (xs ++ ys) = resultsOf xs ++ resultsOf ys :=
  filterMap_append

@[simp, grind =] theorem resultsOf_cons :
    resultsOf (i :: xs) = i.result?.toList ++ resultsOf xs := by
  unfold resultsOf
  cases h : i.result? with
  | none => exact filterMap_cons_none h
  | some r => exact filterMap_cons_some h

@[simp, grind =] theorem readsOf_nil : readsOf [] = [] := rfl

@[simp, grind =] theorem readsOf_cons : readsOf (i :: xs) = i.reads ++ readsOf xs := rfl

@[simp, grind =] theorem readsOf_append : readsOf (xs ++ ys) = readsOf xs ++ readsOf ys :=
  flatMap_append

end Lists

/-! ## Names in order -/

/-- The numbers from one up to another, which is not among them. -/
def numbers (low high : Nat) : List Nat := range' low (high - low)

theorem numbers_self (n : Nat) : numbers n n = [] := by
  unfold numbers
  rw [Nat.sub_self]
  rfl

theorem numbers_succ (n : Nat) : numbers n (n + 1) = [n] := by
  unfold numbers
  rw [Nat.add_sub_cancel_left]
  rfl

theorem numbers_append {a b c : Nat} (ab : a ≤ b) (bc : b ≤ c) :
    numbers a b ++ numbers b c = numbers a c := by
  have middle : b = a + (b - a) := by omega
  have length : c - a = (b - a) + (c - b) := by omega
  unfold numbers
  rw [length, ← range'_append_1, ← middle]

theorem Instr.label?_eq_none {i : Instr} (h : i.isLabel = false) : i.label? = none := by
  cases i with
  | label l => cases h
  | _ => rfl

theorem eq_of_nodup_filterMap {α β : Type} {g : α → Option β} {xs : List α}
    (nodup : (xs.filterMap g).Nodup)
    {x y : α} {r : β} (hx : x ∈ xs) (hy : y ∈ xs) (gx : g x = some r) (gy : g y = some r) :
    x = y := by
  have apart := pairwise_filterMap.mp nodup
  by_contra differ
  have : Std.Symm fun x y => ∀ r, g x = some r → ∀ s, g y = some s → r ≠ s :=
    ⟨fun _ _ h r hr s hs eq => h s hs r hr eq.symm⟩
  exact apart.forall hx hy differ r gx r gy rfl

namespace Reading

variable {r r' : Reading} {i : Instr} {lines : List Instr}

theorem take_eq_some {v : Register} {names : NameSupply} {addresses : List Register}
    (h : r.take v = some (names, addresses)) : names = r.names ∧ r.addresses = v :: addresses := by
  unfold take at h
  split at h
  · rename_i next
    cases h
    obtain ⟨rest, eq⟩ := head?_eq_some_iff.mp next
    rw [eq]
    exact ⟨rfl, rfl⟩
  · cases h

/-- What a line can be to a reader: a label, a line that gives the next register a value, a line
that gives an address, or one that gives none of these. -/
theorem next_cases (h : r.next i = some r') :
    (i = .label r.names.label ∧ r'.names = r.names.nextLabel ∧ r'.addresses = r.addresses) ∨
    (i.isLabel = false ∧ i.result? = some r.names.register ∧
      (r'.names = r.names.nextRegister ∨ r'.names = r.names.nextGlobal.nextRegister) ∧
        r'.addresses = r.addresses) ∨
    (i.isLabel = false ∧ ∃ v, i.result? = some v ∧ r'.names = r.names ∧
      r.addresses = v :: r'.addresses) ∨
    (i.isLabel = false ∧ i.result? = none ∧ r'.names = r.names ∧ r'.addresses = r.addresses) := by
  obtain ⟨position, -, h⟩ := Option.bind_eq_some_iff.mp h
  obtain ⟨⟨names, addresses⟩, passes, h⟩ := Option.bind_eq_some_iff.mp h
  obtain rfl := Option.some.inj h
  cases i with
  | label l =>
    simp only [pass] at passes
    split at passes
    · rename_i eq
      cases passes
      exact .inl ⟨congrArg _ eq, rfl, rfl⟩
    · cases passes
  | load | compute | compare | phi =>
    simp only [pass] at passes
    split at passes
    · rename_i eq
      cases passes
      exact .inr (.inl ⟨rfl, congrArg some eq, .inl rfl, rfl⟩)
    · cases passes
  | call result callee arguments =>
    cases result with
    | none =>
      cases passes
      exact .inr (.inr (.inr ⟨rfl, rfl, rfl, rfl⟩))
    | some result =>
      simp only [pass] at passes
      split at passes
      · rename_i eq
        cases passes
        exact .inr (.inl ⟨rfl, congrArg some eq, .inl rfl, rfl⟩)
      · cases passes
  | stringAddress v length constant =>
    simp only [pass] at passes
    split at passes
    · rename_i eq
      cases passes
      exact .inr (.inl ⟨rfl, congrArg some eq.1, .inr rfl, rfl⟩)
    · cases passes
  | allocaFrame | allocaSlot | slotAddress =>
    obtain ⟨rfl, eq⟩ := take_eq_some passes
    exact .inr (.inr (.inl ⟨rfl, _, rfl, rfl, eq⟩))
  | _ =>
    cases passes
    exact .inr (.inr (.inr ⟨rfl, rfl, rfl, rfl⟩))

/-- The labels of a line are those that are free before it and not behind it. -/
theorem labels_of_next (h : r.next i = some r') : r.names.labels ≤ r'.names.labels ∧
      i.label?.toList = (numbers r.names.labels r'.names.labels).map .numbered := by
  have other : i.isLabel = false → r'.names.labels = r.names.labels →
      r.names.labels ≤ r'.names.labels ∧
        i.label?.toList = (numbers r.names.labels r'.names.labels).map .numbered := by
    intro notLabel same
    rw [Instr.label?_eq_none notLabel, same, numbers_self]
    exact ⟨Nat.le_refl _, rfl⟩
  rcases next_cases h with ⟨rfl, names, -⟩ | ⟨notLabel, -, names, -⟩ | ⟨notLabel, v, -, names, -⟩ |
    ⟨notLabel, -, names, -⟩
  · have next : r'.names.labels = r.names.labels + 1 := congrArg NameSupply.labels names
    rw [next, numbers_succ]
    exact ⟨Nat.le_succ _, rfl⟩
  · refine other notLabel ?_
    rcases names with names | names
    · rw [names]
      rfl
    · rw [names]
      rfl
  · exact other notLabel (congrArg NameSupply.labels names)
  · exact other notLabel (congrArg NameSupply.labels names)

/-- All labels that are free before the lines and not behind them are there, in order. -/
theorem labels_of_read (h : r.read lines = some r') : r.names.labels ≤ r'.names.labels ∧
      labelsOf lines = (numbers r.names.labels r'.names.labels).map .numbered := by
  induction lines generalizing r with
  | nil =>
    cases h
    rw [numbers_self]
    exact ⟨Nat.le_refl _, rfl⟩
  | cons i lines ih =>
    rw [read_cons] at h
    obtain ⟨next, here, h⟩ := Option.bind_eq_some_iff.mp h
    obtain ⟨first, label⟩ := labels_of_next here
    obtain ⟨rest, labels⟩ := ih h
    refine ⟨Nat.le_trans first rest, ?_⟩
    rw [labelsOf_cons, label, labels, ← map_append, numbers_append first rest]

/-- The registers that a line gives are those that are free before it and not behind it, or the next
one with an address. -/
theorem results_of_next (h : r.next i = some r') :
    r.names.registers ≤ r'.names.registers ∧ ∃ used, r.addresses = used ++ r'.addresses ∧
      i.result?.toList = used ++ (numbers r.names.registers r'.names.registers).map .temp := by
  have value : i.result? = some r.names.register → r'.names.registers = r.names.registers + 1 →
      r'.addresses = r.addresses →
      r.names.registers ≤ r'.names.registers ∧ ∃ used, r.addresses = used ++ r'.addresses ∧
        i.result?.toList = used ++ (numbers r.names.registers r'.names.registers).map .temp := by
    intro result next same
    rw [next, numbers_succ, result]
    exact ⟨Nat.le_succ _, [], same.symm, rfl⟩
  rcases next_cases h with ⟨rfl, names, same⟩ | ⟨-, result, names, same⟩ | ⟨-, v, result,
    names, eq⟩ | ⟨-, result, names, same⟩
  · have next : r'.names.registers = r.names.registers := by
      rw [names]
      rfl
    rw [next, numbers_self]
    exact ⟨Nat.le_refl _, [], same.symm, rfl⟩
  · rcases names with names | names
    · exact value result (congrArg NameSupply.registers names) same
    · exact value result (congrArg NameSupply.registers names) same
  · rw [names, numbers_self, result]
    exact ⟨Nat.le_refl _, [v], eq, rfl⟩
  · rw [names, numbers_self, result]
    exact ⟨Nat.le_refl _, [], same.symm, rfl⟩

/-- The lines give all registers that are free before them and not behind them, and the next ones
with addresses, each once. -/
theorem results_of_read (h : r.read lines = some r') :
    r.names.registers ≤ r'.names.registers ∧ ∃ used, r.addresses = used ++ r'.addresses ∧
        (resultsOf lines).Perm
        (used ++ (numbers r.names.registers r'.names.registers).map .temp) := by
  induction lines generalizing r with
  | nil =>
    cases h
    rw [numbers_self]
    exact ⟨Nat.le_refl _, [], rfl, .refl _⟩
  | cons i lines ih =>
    rw [read_cons] at h
    obtain ⟨next, here, h⟩ := Option.bind_eq_some_iff.mp h
    obtain ⟨first, used, taken, result⟩ := results_of_next here
    obtain ⟨rest, used', taken', results⟩ := ih h
    refine ⟨Nat.le_trans first rest, used ++ used', ?_, ?_⟩
    · rw [taken, taken', append_assoc]
    · rw [resultsOf_cons, result, ← numbers_append first rest, map_append]
      -- The new address moves in front of the values before it.
      generalize (numbers r.names.registers next.names.registers).map Register.temp = values
      generalize (numbers next.names.registers r'.names.registers).map Register.temp = values' at *
      calc (used ++ values) ++ resultsOf lines
        _ |>.Perm ((used ++ values) ++ (used' ++ values')) := results.append_left _
        _ = used ++ ((values ++ used') ++ values') := by simp only [append_assoc]
        _ |>.Perm (used ++ ((used' ++ values) ++ values')) :=
          ((perm_append_comm.append_right _).append_left _)
        _ = (used ++ used') ++ (values ++ values') := by simp only [append_assoc]

end Reading

end Backpatch
