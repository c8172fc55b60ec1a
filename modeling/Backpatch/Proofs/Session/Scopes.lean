import Mathlib.Data.List.Nodup
import Backpatch.Symbol

/-!
# Tables of symbols

The operations on a table, one after the other. Whatever they are, the table has what they have
declared and nothing else (`SymbolTable.Represents`): the index of a scope finds each symbol by its
name, the variables of the open scopes are numbered from zero on without a gap, and so are the
parameters of each scope. Only the size of the frame depends on what has been closed. An operation
touches the innermost scope only, so what is done in a scope is gone when the scope is closed
(`SymbolTable.History.closeScope_restores`).
-/

namespace Backpatch

open List

theorem find?_eq_of_nodup {α : Type} {f : α → String} {xs : List α} (nodup : (xs.map f).Nodup)
    {x : α} (mem : x ∈ xs) : xs.find? (f · == f x) = some x := by
  have present : (xs.find? (f · == f x)).isSome := find?_isSome.mpr ⟨x, mem, beq_self_eq_true _⟩
  obtain ⟨y, found⟩ := Option.isSome_iff_exists.mp present
  have same : (f y == f x) = true := find?_some (p := (f · == f x)) found
  rw [found, inj_on_of_nodup_map nodup (mem_of_find?_eq_some found) mem (beq_iff_eq.mp same)]

/-! ## Scopes -/

/-- A declaration, as it is before it gets a number. -/
structure Declaration where
  name : String
  type : Ty
  kind : SymbolKind

/-- A scope declares a name once. The innermost scope comes first. -/
def Declaration.addTo (d : Declaration) : List (List Declaration) → List (List Declaration)
  | [] => []
  | block :: outer =>
    (if d.name ∈ block.map Declaration.name then block else block ++ [d]) :: outer

def Symbol.declaration (s : Symbol) : Declaration := ⟨s.name, s.type, s.kind⟩

theorem Symbol.parameterIndex_eq (name : String) (type : Ty) (index : Nat) :
    parameterIndex ⟨name, type, -(index : Int) - 1, .parameter⟩ = some index := by
  have position : -(-(index : Int) - 1) - 1 = index := by omega
  show (-(-(index : Int) - 1) - 1).toNat? = some index
  rw [position]
  rfl

namespace Scope

variable {s s' : Scope} {symbol : Symbol} {name : String}

theorem lookup_insert (s : Scope) (symbol : Symbol) (name : String) :
    (s.insert symbol).index.lookup name
      = if name = symbol.name then some s.symbols.length else s.index.lookup name := by
  show ((symbol.name, s.symbols.length) :: s.index).lookup name = _
  rw [lookup_cons]
  by_cases eq : name = symbol.name
  · rw [if_pos eq, beq_iff_eq.mpr eq]
  · rw [if_neg eq, beq_eq_false_iff_ne.mpr eq]

theorem contains_insert (s : Scope) (symbol : Symbol) (name : String) :
    (s.insert symbol).contains name = (decide (name = symbol.name) || s.contains name) := by
  unfold contains
  rw [lookup_insert]
  by_cases eq : name = symbol.name
  · rw [if_pos eq, decide_eq_true eq]
    rfl
  · rw [if_neg eq, decide_eq_false eq, Bool.false_or]

/-- The positions in the index are positions in the list. -/
def Indexed (s : Scope) : Prop := ∀ name i, s.index.lookup name = some i → i < s.symbols.length

theorem indexed_empty (nextSlot : Nat) (isLoop : Bool) :
    Indexed { nextSlot := nextSlot, isLoop := isLoop } := by
  intro name i found
  cases found

theorem Indexed.insert (h : s.Indexed) (symbol : Symbol) : (s.insert symbol).Indexed := by
  intro name i found
  rw [lookup_insert] at found
  show i < (s.symbols ++ [symbol]).length
  rw [length_append]
  split at found
  · cases found
    exact Nat.lt_succ_self _
  · exact Nat.lt_succ_of_lt (h name i found)

theorem Indexed.get?_insert (h : s.Indexed) (symbol : Symbol) (name : String) :
    (s.insert symbol).get? name = if name = symbol.name then some symbol else s.get? name := by
  unfold get?
  rw [lookup_insert]
  by_cases eq : name = symbol.name
  · rw [if_pos eq, if_pos eq]
    exact getElem?_concat_length
  · rw [if_neg eq, if_neg eq]
    cases found : s.index.lookup name with
    | none => rfl
    | some i => exact getElem?_append_left (h name i found)

theorem Indexed.contains_eq (h : s.Indexed) (name : String) :
    s.contains name = (s.get? name).isSome := by
  unfold contains get?
  cases found : s.index.lookup name with
  | none => rfl
  | some i =>
    show true = (s.symbols[i]?).isSome
    rw [getElem?_eq_getElem (h name i found)]
    rfl

/-- What the scope declares. -/
def declarations (s : Scope) : List Declaration := s.symbols.map Symbol.declaration

theorem map_name_declarations (s : Scope) :
    s.declarations.map Declaration.name = s.symbols.map Symbol.name := map_map

def parameters (s : Scope) : List Symbol := s.symbols.filter (·.symbolClass == .parameter)

/-- The index and the list say the same, and the parameters are numbered in their order. -/
structure Sound (s : Scope) : Prop where
  index : ∀ name i, s.index.lookup name = some i ↔ (s.symbols.map Symbol.name)[i]? = some name
  indices : s.parameters.map Symbol.parameterIndex = (range s.parameters.length).map some
  next : s.parameterOffset = -(s.parameters.length : Int) - 1

theorem Sound.names (h : s.Sound) : (s.symbols.map Symbol.name).Nodup := by
  rw [nodup_iff_getElem?_ne_getElem?]
  intro i j lt bound same
  have last := getElem?_eq_getElem bound
  have first := (h.index _ i).mpr (same.trans last)
  rw [(h.index _ j).mpr last] at first
  exact Nat.ne_of_gt lt (Option.some.inj first)

theorem Sound.get?_eq_some (h : s.Sound) :
    s.get? name = some symbol ↔ symbol ∈ s.symbols ∧ symbol.name = name := by
  constructor
  · intro found
    obtain ⟨i, listed, here⟩ := Option.bind_eq_some_iff.mp found
    have named := (h.index name i).mp listed
    rw [getElem?_map, here] at named
    exact ⟨mem_of_getElem? here, Option.some.inj named⟩
  · rintro ⟨mem, rfl⟩
    obtain ⟨i, here⟩ := getElem?_of_mem mem
    have listed := (h.index symbol.name i).mpr (by rw [getElem?_map, here]; rfl)
    unfold get?
    rw [listed]
    exact here

theorem Sound.contains_iff (h : s.Sound) :
    s.contains name = true ↔ name ∈ s.symbols.map Symbol.name := by
  unfold contains
  rw [Option.isSome_iff_exists, mem_iff_getElem?]
  exact exists_congr (h.index name)

/-- The scope with one more symbol, which has the next number of its class. -/
structure Adds (s : Scope) (symbol : Symbol) (s' : Scope) : Prop where
  symbols : s'.symbols = s.symbols ++ [symbol]
  index : s'.index = (s.insert symbol).index
  number : match symbol.kind with
    | .variable _ => symbol.offset = s.nextSlot ∧ s'.nextSlot = s.nextSlot + 1 ∧
      s'.parameterOffset = s.parameterOffset
    | .parameter => symbol.offset = s.parameterOffset ∧ s'.nextSlot = s.nextSlot ∧
      s'.parameterOffset = s.parameterOffset - 1
    | .function _ => s'.nextSlot = s.nextSlot ∧ s'.parameterOffset = s.parameterOffset

theorem Adds.declarations (h : s.Adds symbol s') :
    s'.declarations = s.declarations ++ [symbol.declaration] := by
  unfold Scope.declarations
  rw [h.symbols, map_append]
  rfl

theorem adds_variable (s : Scope) (name : String) (type : Ty) (pointer : Register) :
    s.Adds ⟨name, type, s.nextSlot, .variable pointer⟩
      { s.insert ⟨name, type, s.nextSlot, .variable pointer⟩ with nextSlot := s.nextSlot + 1 } :=
  ⟨rfl, rfl, rfl, rfl, rfl⟩

theorem adds_parameter (s : Scope) (name : String) (type : Ty) :
    s.Adds ⟨name, type, s.parameterOffset, .parameter⟩
      { s.insert ⟨name, type, s.parameterOffset, .parameter⟩ with
        parameterOffset := s.parameterOffset - 1 } :=
  ⟨rfl, rfl, rfl, rfl, rfl⟩

theorem adds_function (s : Scope) (name : String) (type : Ty) (parameters : List Ty) :
    s.Adds ⟨name, type, 0, .function parameters⟩ (s.insert ⟨name, type, 0, .function parameters⟩) :=
  ⟨rfl, rfl, rfl, rfl⟩

theorem Sound.adds (h : s.Sound) (free : ¬ s.contains symbol.name = true)
    (adds : s.Adds symbol s') : s'.Sound := by
  obtain ⟨symbols, index, number⟩ := adds
  have unused : ∀ i : Nat, (s.symbols.map Symbol.name)[i]? ≠ some symbol.name := by
    intro i taken
    exact free (h.contains_iff.mpr (mem_of_getElem? taken))
  have parameters : s'.parameters = s.parameters ++ [symbol].filter
      (·.symbolClass == .parameter) := by
    unfold Scope.parameters
    rw [symbols, filter_append]
  have listed : ∀ name i, s'.index.lookup name = some i ↔
      (s'.symbols.map Symbol.name)[i]? = some name := by
    intro name i
    rw [index, lookup_insert, symbols, map_append, map_singleton]
    by_cases eq : name = symbol.name
    · rw [if_pos eq, eq]
      grind
    · rw [if_neg eq, h.index]
      grind
  have kept (same : s'.parameters = s.parameters) (next : s'.parameterOffset = s.parameterOffset) :
      s'.Sound := by
    refine ⟨listed, ?_, ?_⟩
    · rw [same, h.indices]
    · rw [same, next, h.next]
  obtain ⟨name, type, offset, kind⟩ := symbol
  cases kind with
  | parameter =>
    obtain ⟨rfl, -, next⟩ := number
    replace parameters : s'.parameters = s.parameters ++ [_] := parameters
    refine ⟨listed, ?_, ?_⟩
    · rw [parameters, map_append, h.indices, length_append, length_singleton,
        range_succ, map_append]
      rw [h.next, map_singleton, Symbol.parameterIndex_eq]
      rfl
    · rw [parameters, length_append, length_singleton, next, h.next]
      omega
  | «variable» pointer => exact kept (parameters.trans (List.append_nil _)) number.2.2
  | function types => exact kept (parameters.trans (List.append_nil _)) number.2

end Scope

namespace SymbolTable

variable {t : SymbolTable} {name : String} {l : Location}

/-- The variables of the scopes, from the outermost scope inwards. The innermost scope comes first
in the list. -/
def locals (scopes : List Scope) : List Symbol :=
  (scopes.reverse.flatMap Scope.symbols).filter (·.symbolClass == .variable)

theorem locals_cons (scope : Scope) (outer : List Scope) : locals (scope :: outer)
    = locals outer ++ scope.symbols.filter (·.symbolClass == .variable) := by
  unfold locals
  rw [reverse_cons, flatMap_append, filter_append, flatMap_singleton]

/-- Each scope counts on from the variables of the scopes around it. -/
def Stacked : List Scope → Prop
  | [] => True
  | scope :: outer => scope.Sound ∧
    (locals (scope :: outer)).map Symbol.offset = (range scope.nextSlot).map Int.ofNat ∧
      Stacked outer

theorem Stacked.sound {scopes : List Scope} (h : Stacked scopes) :
    ∀ scope ∈ scopes, scope.Sound := by
  induction scopes with
  | nil => exact forall_mem_nil _
  | cons scope outer ih => exact forall_mem_cons.mpr ⟨h.1, ih h.2.2⟩

theorem scopes_eq (present : t.scopes ≠ []) : t.scopes = t.current :: t.scopes.tail := by
  unfold current
  cases scopes : t.scopes with
  | nil => exact absurd scopes present
  | cons scope outer => rfl

/-- What the innermost scope says of the next variable holds of all open scopes. -/
theorem Stacked.current (h : Stacked t.scopes) (present : t.scopes ≠ []) :
    t.current.Sound ∧
      (locals t.scopes).map Symbol.offset = (range t.current.nextSlot).map Int.ofNat := by
  rw [scopes_eq present] at h ⊢
  exact ⟨h.1, h.2.1⟩

theorem Stacked.adds {symbol : Symbol} {scope : Scope} (h : Stacked t.scopes)
    (present : t.scopes ≠ []) (free : ¬ t.current.contains symbol.name = true)
    (adds : t.current.Adds symbol scope) : Stacked (scope :: t.scopes.tail) := by
  rw [scopes_eq present] at h
  obtain ⟨sound, numbered, rest⟩ := h
  refine ⟨sound.adds free adds, ?_, rest⟩
  rw [locals_cons] at numbered ⊢
  rw [adds.symbols, filter_append, ← append_assoc, map_append, numbered]
  have number := adds.number
  obtain ⟨name, type, offset, kind⟩ := symbol
  cases kind with
  | «variable» pointer =>
    obtain ⟨rfl, next, -⟩ := number
    rw [next, range_succ, map_append]
    rfl
  | parameter =>
    rw [number.2.1]
    exact List.append_nil _
  | function types =>
    rw [number.1]
    exact List.append_nil _

theorem Stacked.openScope (h : Stacked t.scopes) (present : t.scopes ≠ []) (isLoop : Bool) :
    Stacked (t.openScope isLoop).scopes := by
  refine ⟨⟨fun name i => ?_, rfl, rfl⟩, ?_, h⟩
  · exact iff_of_false nofun nofun
  · rw [locals_cons]
    exact (congrArg _ (List.append_nil _)).trans (h.current present).2

theorem closeScope_eq (t : SymbolTable) : t.closeScope
    = { t with scopes := if 1 < t.scopes.length then t.scopes.tail else t.scopes } := by
  unfold closeScope
  split <;> rfl

theorem closeScope_of_tail {base : List Scope} (tail : t.scopes.tail = base)
    (nonempty : base ≠ []) : t.closeScope = { t with scopes := base } := by
  have count : 0 < t.scopes.length - 1 := by
    rw [← length_tail, tail]
    exact length_pos_iff.mpr nonempty
  rw [closeScope_eq, if_pos (Nat.lt_of_sub_pos count), tail]

theorem closeScope_ne_nil (present : t.scopes ≠ []) : t.closeScope.scopes ≠ [] := by
  rw [closeScope_eq]
  show ite _ _ _ ≠ _
  split
  · rename_i more
    exact ne_nil_of_length_pos (length_tail ▸ Nat.sub_pos_of_lt more)
  · exact present

theorem Stacked.closeScope (h : Stacked t.scopes) : Stacked t.closeScope.scopes := by
  rw [closeScope_eq]
  show Stacked (ite _ _ _)
  split
  · cases scopes : t.scopes with
    | nil => trivial
    | cons scope outer =>
      rw [scopes] at h
      exact h.2.2
  · exact h

theorem checkFree_bind {α : Type} {next : Unit → Except SemanticError α} :
    (t.checkFree name l >>= next) = if t.current.contains name then .error (.redefinition name l)
      else next () := by
  unfold checkFree
  split <;> rfl

theorem addFunction_eq (type : Ty) (parameters : List Ty) :
    t.addFunction name type parameters l = if t.current.contains name then .error
      (.redefinition name l)
      else .ok (t.modifyCurrent (·.insert ⟨name, type, 0, .function parameters⟩)) :=
  checkFree_bind

theorem addVariable_eq (type : Ty) (pointer : Register) :
    t.addVariable name type pointer l = if t.current.contains name then .error
      (.redefinition name l) else .ok (t.current.nextSlot, { t.modifyCurrent (fun scope =>
          { scope.insert ⟨name, type, t.current.nextSlot, .variable pointer⟩ with
            nextSlot := t.current.nextSlot + 1 }) with
        frameSize := max t.frameSize (t.current.nextSlot + 1) }) :=
  checkFree_bind

theorem addParameter_eq (type : Ty) :
    t.addParameter name type l = if t.current.contains name then .error (.redefinition name l)
      else .ok ((Symbol.parameterIndex ⟨name, type, t.current.parameterOffset, .parameter⟩).getD 0,
        t.modifyCurrent fun scope =>
          { scope.insert ⟨name, type, t.current.parameterOffset, .parameter⟩ with
            parameterOffset := t.current.parameterOffset - 1 }) :=
  checkFree_bind

/-- A table in which some declarations have been made: those in the open scopes, the innermost
scope first, and those of variables that the frame has room for. -/
structure Represents (t : SymbolTable) (blocks : List (List Declaration)) (recent : List Nat) :
    Prop where
  /-- The global scope is there, as the outermost one. -/
  global : t.scopes.getLast? = some t.global
  /-- Each scope has what was declared in it, in that order, and nothing else. -/
  declarations : t.scopes.map Scope.declarations = blocks
  names : ∀ scope ∈ t.scopes, (scope.symbols.map Symbol.name).Nodup
  /-- The index of a scope gives the position of each name. -/
  index : ∀ scope ∈ t.scopes, ∀ name i,
    scope.index.lookup name = some i ↔ (scope.symbols.map Symbol.name)[i]? = some name
  /-- A scope finds the symbol that has the name, if there is one. -/
  get : ∀ scope ∈ t.scopes, ∀ name symbol,
    scope.get? name = some symbol ↔ symbol ∈ scope.symbols ∧ symbol.name = name
  /-- The variables of all open scopes are numbered, from the global scope inwards. -/
  offsets : (locals t.scopes).map Symbol.offset
    = (range (locals t.scopes).length).map Int.ofNat
  parameters : ∀ scope ∈ t.scopes, scope.parameters.map Symbol.parameterIndex
    = (range scope.parameters.length).map some
  frameSize : t.frameSize = (recent.map (· + 1)).max?.getD 0
  /-- A declaration fails if the innermost scope has the name. Otherwise the variable or the
  parameter gets the next number. -/
  addVariable : ∀ name type pointer l, (t.addVariable name type pointer l).map Prod.fst
    = if name ∈ t.current.symbols.map Symbol.name then .error (.redefinition name l)
      else .ok (locals t.scopes).length
  addParameter : ∀ name type l, (t.addParameter name type l).map Prod.fst
    = if name ∈ t.current.symbols.map Symbol.name then .error (.redefinition name l)
      else .ok t.current.parameters.length
  addFunction : ∀ name type parameters l, (t.addFunction name type parameters l).map (fun _ => ())
    = if name ∈ t.current.symbols.map Symbol.name then .error (.redefinition name l) else .ok ()

/-! ## Operations -/

/-- What can be done to a table. -/
inductive Operation
  | openScope (isLoop : Bool)
  | closeScope
  | addVariable (name : String) (type : Ty) (pointer : Register) (location : Location)
  | addParameter (name : String) (type : Ty) (location : Location)
  | addFunction (name : String) (type : Ty) (parameters : List Ty) (location : Location)
  | resetFrame

/-- What is declared in the open scopes after an operation, the innermost scope first. -/
def declaredAfter (blocks : List (List Declaration)) : Operation → List (List Declaration)
  | .openScope _ => [] :: blocks
  | .closeScope => if 1 < blocks.length then blocks.tail else blocks
  | .addVariable name type pointer _ => Declaration.addTo ⟨name, type, .variable pointer⟩ blocks
  | .addParameter name type _ => Declaration.addTo ⟨name, type, .parameter⟩ blocks
  | .addFunction name type parameters _ =>
    Declaration.addTo ⟨name, type, .function parameters⟩ blocks
  | .resetFrame => blocks

/-- What the operations declare in a table that has nothing but the global scope. -/
def declared (operations : List Operation) : List (List Declaration) :=
  operations.foldl declaredAfter [[]]

/-- A table after some operations. -/
structure History where
  table : SymbolTable := {}
  /-- The places of the variables that were added since the frame was reset. -/
  recent : List Nat := []

namespace History

/-- The history after a declaration. One that fails changes nothing. -/
def declare {α : Type} (h : History) (result : Except SemanticError α) (next : α → History) :
    History :=
  match result with
  | .ok x => next x
  | .error _ => h

def perform (h : History) : Operation → History
  | .openScope isLoop => { h with table := h.table.openScope isLoop }
  | .closeScope => { h with table := h.table.closeScope }
  | .addVariable name type pointer location =>
    h.declare (h.table.addVariable name type pointer location) fun (slot, table) =>
      ⟨table, slot :: h.recent⟩
  | .addParameter name type location =>
    h.declare (h.table.addParameter name type location) fun (_, table) =>
      { h with table := table }
  | .addFunction name type parameters location =>
    h.declare (h.table.addFunction name type parameters location) fun table =>
      { h with table := table }
  | .resetFrame => ⟨h.table.resetFrame, []⟩

/-- The operations one after the other, from a new table on. -/
def run (operations : List Operation) : History := operations.foldl perform {}

/-- The table has what was declared, and the frame is as large as the variables since its reset
need. -/
structure Sound (h : History) (blocks : List (List Declaration)) : Prop where
  present : h.table.scopes ≠ []
  stacked : Stacked h.table.scopes
  declarations : h.table.scopes.map Scope.declarations = blocks
  frameSize : h.table.frameSize = (h.recent.map (· + 1)).max?.getD 0

variable {h : History} {blocks : List (List Declaration)}

theorem declare_cases {α : Type} {result : Unit → Except SemanticError α} {next : α → History}
    {P : History → Prop} (same : h.table.current.contains name = true → P h)
    (free : ¬ h.table.current.contains name = true → ∃ x, result () = .ok x ∧ P (next x)) :
    P (h.declare (h.table.checkFree name l >>= result) next) := by
  rw [checkFree_bind]
  by_cases taken : h.table.current.contains name = true
  · rw [if_pos taken]
    exact same taken
  · obtain ⟨x, ok, after⟩ := free taken
    rw [if_neg taken, ok]
    exact after

/-- One more symbol in the innermost scope, if the name is free there. -/
theorem Sound.declare {α : Type} {result : Unit → Except SemanticError α} {next : α → History}
    {symbol : Symbol} {scope : Scope} {x : α} (sound : h.Sound blocks)
    (adds : h.table.current.Adds symbol scope) (ok : result () = .ok x)
    (table : (next x).table.scopes = scope :: h.table.scopes.tail)
    (frameSize : (next x).table.frameSize = ((next x).recent.map (· + 1)).max?.getD 0) :
    (h.declare (h.table.checkFree symbol.name l >>= result) next).Sound
      (symbol.declaration.addTo blocks) := by
  obtain ⟨present, stacked, rfl, frame⟩ := sound
  have contains : h.table.current.contains symbol.name = true ↔ _ :=
    (stacked.current present).1.contains_iff
  rw [← Scope.map_name_declarations] at contains
  refine declare_cases (P := (Sound · _)) (fun taken => ⟨present, stacked, ?_, frame⟩)
    fun free => ⟨x, ok, ?_⟩
  · rw [scopes_eq present]
    exact congrArg (· :: _) (if_pos (contains.mp taken)).symm
  · refine ⟨table ▸ cons_ne_nil _ _, table ▸ stacked.adds present free adds, ?_, frameSize⟩
    rw [table, scopes_eq present, map_cons, adds.declarations]
    exact congrArg (· :: _) (if_neg (mt contains.mpr free)).symm

theorem Sound.perform (sound : h.Sound blocks) (operation : Operation) :
    (h.perform operation).Sound (declaredAfter blocks operation) := by
  have ⟨present, stacked, declarations, frameSize⟩ := sound
  cases operation with
  | openScope isLoop =>
    exact ⟨cons_ne_nil _ _, stacked.openScope present isLoop,
      congrArg (cons _) declarations, frameSize⟩
  | closeScope =>
    refine ⟨closeScope_ne_nil present, stacked.closeScope, ?_, ?_⟩
    · show h.table.closeScope.scopes.map _ = ite _ _ _
      rw [closeScope_eq, ← declarations, length_map, ← map_tail]
      exact apply_ite ..
    · show h.table.closeScope.frameSize = _
      rw [closeScope_eq]
      exact frameSize
  | addVariable name type pointer location =>
    refine sound.declare (h.table.current.adds_variable name type pointer) rfl rfl ?_
    show max h.table.frameSize (h.table.current.nextSlot + 1) = _
    rw [map_cons, max?_cons, frameSize]
    cases (h.recent.map (· + 1)).max? with
    | none => exact Nat.zero_max _
    | some size => exact Nat.max_comm ..
  | addParameter name type location =>
    exact sound.declare (h.table.current.adds_parameter name type) rfl rfl frameSize
  | addFunction name type parameters location =>
    exact sound.declare (h.table.current.adds_function name type parameters) rfl rfl frameSize
  | resetFrame => exact ⟨present, stacked, declarations, rfl⟩

theorem Sound.foldl (sound : h.Sound blocks) (operations : List Operation) :
    (operations.foldl History.perform h).Sound (operations.foldl declaredAfter blocks) := by
  induction operations generalizing h blocks with
  | nil => exact sound
  | cons operation operations ih => exact ih (sound.perform operation)

theorem sound_run (operations : List Operation) : (run operations).Sound (declared operations) := by
  have empty : Scope.Sound {} := ⟨fun _ _ => iff_of_false nofun nofun, rfl, rfl⟩
  have start : Sound {} [[]] := ⟨cons_ne_nil _ _, ⟨empty, rfl, trivial⟩, rfl, rfl⟩
  exact start.foldl operations

/-- After any operations on a new table, it has what they have declared and not closed, and the
frame has room for the variables that were added since it was reset, and no more. -/
theorem run_represents (operations : List Operation) :
    (run operations).table.Represents (declared operations) (run operations).recent := by
  obtain ⟨present, stacked, declarations, frameSize⟩ := sound_run operations
  generalize (run operations).table = t at *
  obtain ⟨sound, numbered⟩ := stacked.current present
  have count : (locals t.scopes).length = t.current.nextSlot := by
    have lengths := congrArg length numbered
    rwa [length_map, length_map, length_range] at lengths
  have contains (name : String) : (t.current.contains name = true)
      = (name ∈ t.current.symbols.map Symbol.name) := propext sound.contains_iff
  constructor
  · unfold global
    rw [getLastD_eq_getLast?, getLast?_eq_some_getLast present]
    rfl
  · exact declarations
  · exact fun scope mem => (stacked.sound scope mem).names
  · exact fun scope mem => (stacked.sound scope mem).index
  · exact fun scope mem _ _ => (stacked.sound scope mem).get?_eq_some
  · rw [numbered, count]
  · exact fun scope mem => (stacked.sound scope mem).indices
  · exact frameSize
  · intro name type pointer l
    rw [addVariable_eq, count]
    simp only [contains]
    split <;> rfl
  · intro name type l
    rw [addParameter_eq, sound.next, Symbol.parameterIndex_eq]
    simp only [contains]
    split <;> rfl
  · intro name type parameters l
    rw [addFunction_eq]
    simp only [contains]
    split <;> rfl

/-! ## Closing a scope -/

/-- An operation changes nothing below the innermost scope. -/
theorem scopes_perform (present : h.table.scopes ≠ []) (operation : Operation) :
    ∃ top, (h.perform operation).table.scopes = top ++ h.table.scopes.tail := by
  have same : ∃ top, h.table.scopes = top ++ h.table.scopes.tail :=
    ⟨[h.table.current], scopes_eq present⟩
  cases operation with
  | openScope isLoop => exact ⟨[_, h.table.current], congrArg (cons _) (scopes_eq present)⟩
  | closeScope =>
    show ∃ top, h.table.closeScope.scopes = _
    rw [closeScope_eq]
    show ∃ top, ite _ _ _ = _
    split
    · exact ⟨[], rfl⟩
    · exact same
  | addVariable name type pointer location =>
    exact declare_cases (P := fun h' => ∃ top, h'.table.scopes = top ++ _) (fun _ => same)
      fun _ => ⟨_, rfl, [_], rfl⟩
  | addParameter name type location =>
    exact declare_cases (P := fun h' => ∃ top, h'.table.scopes = top ++ _) (fun _ => same)
      fun _ => ⟨_, rfl, [_], rfl⟩
  | addFunction name type parameters location =>
    exact declare_cases (P := fun h' => ∃ top, h'.table.scopes = top ++ _) (fun _ => same)
      fun _ => ⟨_, rfl, [_], rfl⟩
  | resetFrame => exact same

/-- While more scopes are open than those of the base, the base stays at the bottom of the stack. -/
theorem suffix_foldl {base : List Scope} {operations : List Operation}
    (bottom : base <:+ h.table.scopes) (above : ∀ n < operations.length,
      base.length < ((operations.take n).foldl perform h).table.scopes.length) :
    base <:+ (operations.foldl perform h).table.scopes := by
  induction operations generalizing h with
  | nil => exact bottom
  | cons operation operations ih =>
    have here : base.length < h.table.scopes.length := above 0 (Nat.zero_lt_succ _)
    have present := ne_nil_of_length_pos (Nat.zero_lt_of_lt here)
    have below : base <:+ h.table.scopes.tail := by
      rw [scopes_eq present] at bottom here
      rcases suffix_cons_iff.mp bottom with all | below
      · rw [all] at here
        exact absurd here (Nat.lt_irrefl _)
      · exact below
    obtain ⟨top, scopes⟩ := scopes_perform present operation
    exact ih (scopes ▸ below.trans (suffix_append ..)) fun n lt =>
      above (n + 1) (Nat.succ_lt_succ lt)

theorem length_scopes (operations : List Operation) :
    (run operations).table.scopes.length = (run operations).table.depth + 1 := by
  have present := (sound_run operations).present
  exact (Nat.sub_add_cancel (length_pos_iff.mpr present)).symm

/-- A scope is opened, and closed again when the operations since then have closed all other scopes
they have opened, and no more. Then the scopes are those from before: all names stand for the same
symbols, the table is inside a loop if it was, and the next variable and the next parameter get the
numbers that they would have got. Only the size of the frame may be another. -/
theorem closeScope_restores (earlier inside : List Operation) (isLoop : Bool)
    (above : ∀ n ≤ inside.length,
      (run earlier).table.depth < (run (earlier ++ .openScope isLoop :: inside.take n)).table.depth)
    (matching : (run (earlier ++ .openScope isLoop :: inside)).table.depth
      = (run earlier).table.depth + 1) :
    let t := (run earlier).table
    let t' := (run (earlier ++ .openScope isLoop :: inside ++ [.closeScope])).table
    t'.scopes = t.scopes ∧ (∀ name, t'.get? name = t.get? name) ∧
    (∀ name symbolClass, t'.getOf? name symbolClass = t.getOf? name symbolClass) ∧
    t'.inLoop = t.inLoop ∧ t'.depth = t.depth ∧
    (∀ name type pointer l,
      (t'.addVariable name type pointer l).map Prod.fst
        = (t.addVariable name type pointer l).map Prod.fst) ∧
    (∀ name type l, (t'.addParameter name type l).map Prod.fst
      = (t.addParameter name type l).map Prod.fst) ∧
    t' = { t with frameSize := t'.frameSize } := by
  intro t t'
  have run_scope (operations : List Operation) : run (earlier ++ .openScope isLoop :: operations)
      = operations.foldl perform ((run earlier).perform (.openScope isLoop)) := foldl_append
  -- The stack of `t` is at the bottom until the last operation, which takes away the one scope on
  -- top of it.
  have bottom : t.scopes <:+ (run (earlier ++ .openScope isLoop :: inside)).table.scopes := by
    rw [run_scope]
    refine suffix_foldl (suffix_cons ..) fun n lt => ?_
    rw [← run_scope, length_scopes, length_scopes]
    exact Nat.succ_lt_succ (above n (Nat.le_of_lt lt))
  have closed : t' = (run (earlier ++ .openScope isLoop :: inside)).table.closeScope := by
    show (run _).table = _
    unfold run
    rw [foldl_append]
    rfl
  have scopes : t'.scopes = t.scopes := by
    obtain ⟨top, scopes⟩ := bottom
    obtain ⟨scope, rfl⟩ : ∃ scope, top = [scope] := by
      have count := congrArg length scopes
      rw [length_append, length_scopes, length_scopes, matching, Nat.add_comm] at count
      exact length_eq_one_iff.mp (Nat.add_left_cancel count)
    rw [closed, closeScope_of_tail (scopes ▸ rfl) (sound_run earlier).present]
  have all : t' = { t with frameSize := t'.frameSize } := by
    rw [← scopes]
  refine ⟨scopes, ?_⟩
  rw [all]
  refine ⟨fun _ => rfl, fun _ _ => rfl, rfl, rfl, fun name type pointer l => ?_,
    fun name type l => ?_, rfl⟩
  · rw [addVariable_eq, addVariable_eq]
    show Except.map _ (ite (t.current.contains name = true) _ _) = _
    split <;> rfl
  · rw [addParameter_eq, addParameter_eq]
    show Except.map _ (ite (t.current.contains name = true) _ _) = _
    split <;> rfl

/-- In a loop inside a function that has a parameter and a variable, a variable hides the parameter,
another block declares a variable and fails to declare it again. What is left of it is the larger
frame. -/
theorem shadowing_closeScope :
    let l : Location := {}
    let earlier : List Operation :=
      [.addFunction "f" .void [.int] l, .openScope false, .addParameter "x" .int l,
      .addVariable "y" .int (.temp 0) l]
    let inside : List Operation := [.addVariable "x" .bool (.temp 1) l, .openScope false,
      .addVariable "y" .string (.temp 2) l, .addVariable "y" .int (.temp 3) l, .closeScope,
      .addFunction "y" .int [] l]
    let t := (run earlier).table
    let t' := (run (earlier ++ .openScope true :: inside ++ [.closeScope])).table
    t'.scopes = t.scopes ∧ t.frameSize = 1 ∧ t'.frameSize = 3 := by
  intro l earlier inside t t'
  refine ⟨(closeScope_restores earlier inside true ?_ ?_).1, ?_, ?_⟩
  · decide +kernel
  · decide +kernel
  · decide +kernel
  · decide +kernel

end History

end SymbolTable

end Backpatch
