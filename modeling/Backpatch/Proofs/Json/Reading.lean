import Backpatch.Options
import Backpatch.Program.Reader
import Backpatch.Proofs.Json.Presentation

/-!
# Reading presentations

Whatever shows a program is read as that program, unless a record in it repeats a field that it
knows: then nothing is read (`Program.ofJson?_of_shown`). So it is with locations and options.
-/

namespace Backpatch

open List Json

namespace Json

variable {α β : Type} {room : Nat} {name : String} {json value : Json} {cell : Option Json}
  {good good' : Bool}

/-! ## Answers -/

/-- What is read of a value that is shown well, or not. -/
def answer (good : Bool) (a : α) : Option α := if good then some a else none

variable {x : Option α} {a : α} {items : List Json} {as : List α} {text : String}

theorem bind_answer {f : α → Option β} {b : β} (first : x = answer good a)
    (rest : f a = answer good' b) : (x >>= f) = answer (good && good') b := by
  rw [first]
  cases good with
  | true => exact rest
  | false => rfl

theorem map_answer (h : x = answer good a) (f : α → β) : x.map f = answer good (f a) := by
  rw [h]
  cases good <;> rfl

theorem mapM_cons_answer {read : Json → Option α} (first : read json = answer good a)
    (rest : items.mapM read = answer good' as) :
    (json :: items).mapM read = answer (good && good') (a :: as) := by
  rw [mapM_cons, first, rest]
  cases good <;> cases good' <;> rfl

theorem mapM_of_shown {write : α → Json} {read : Json → Option α}
    (h : ShownItems room (as.map write) items good)
    (each : ∀ a {json good}, Shown room (write a) json good → read json = answer good a) :
    items.mapM read = answer good as := by
  induction as generalizing items good with
  | nil =>
    cases h
    rfl
  | cons a as ih =>
    obtain _ | ⟨first, rest⟩ := h
    exact mapM_cons_answer (each a first) (ih rest)

theorem text?_of_shown (h : Shown room (ofText text) json good) :
    json.text? = answer good text := by
  cases h
  rfl

/-- What may be missing is `null`, but no object is. -/
theorem optional_of_shown {fields : List (Text × Json)} {read : Json → Option α}
    (h : Shown room (.object fields) json good) (there : read json = answer good a) :
    Json.optional read (some json) = answer good (some a) := by
  cases h with
  | variant | array | object | repeated => exact map_answer there some

/-! ## Cells -/

theorem Shown.list_cases (h : Shown room (.array items) json good) :
    ∃ r items', room = r + 1 ∧ json = .array items' ∧ ShownItems r items items' good := by
  cases h with
  | list h => exact ⟨_, _, rfl, rfl, h⟩

theorem Shown.variant_cases (h : Shown room (ofVariant name json) value good)
    (payload : payloads.contains name = true) :
    ∃ r inner, room = r + 1 ∧ value = ofVariant name inner ∧ Shown r json inner good := by
  have other : isRecord [((name : Text), json)] ≠ true := by simpa [isRecord] using payload
  cases h with
  | variant _ h => exact ⟨_, _, rfl, rfl, h⟩
  | array record | object record | repeated record => exact absurd record other

/-- A field that holds no variant and has no default. -/
theorem ShownCell.required (h : ShownCell room (name, json) cell good)
    (required : (variantFields ++ defaults.map Prod.fst).contains name = false) :
    ∃ value, cell = some value ∧ Shown room json value good := by
  rw [contains_eq_mem, decide_eq_false_iff_not, mem_append, not_or] at required
  cases h with
  | there h => exact ⟨_, rfl, h⟩
  | missing default => exact absurd (mem_map_of_mem default) required.2
  | bare h => exact absurd h required.1

/-- A field that may be left out. -/
theorem ShownCell.read (h : ShownCell room (name, json) cell good)
    (other : variantFields.contains name = false)
    (read : Option Json → Option α) (missing : (name, json) ∈ defaults → read none = some a)
    (there : ∀ value, Shown room json value good → read (some value) = answer good a) :
    read cell = answer good a := by
  rw [contains_eq_mem, decide_eq_false_iff_not] at other
  cases h with
  | there h => exact there _ h
  | missing default => exact missing default
  | bare h => exact absurd h other

/-- A variant without a payload. -/
theorem ShownCell.variant (h : ShownCell room ("op", .string text) cell good) :
    ∃ value, cell = some value ∧ good = true ∧ value.variant? room = some text := by
  cases h with
  | there h =>
    cases h
    exact ⟨_, rfl, rfl, by rw [variant?]⟩
  | missing default => simp [defaults] at default
  | bare => exact ⟨_, rfl, rfl, rfl⟩

end Json

variable {room : Nat} {json : Json} {cell : Option Json} {good : Bool}

/-! ## Locations -/

theorem Location.ofJson?_of_shown (l : Location) (h : Shown room l.toJson json good) :
    Location.ofJson? room json = answer good l := by
  obtain ⟨r, rfl, ⟨rfl, none⟩ | ⟨cells, some, h⟩⟩ := record?_of_shown shape h rfl
  · rw [Location.ofJson?, none]
    rfl
  · obtain _ | ⟨line, _ | ⟨column, ⟨⟩⟩⟩ := h
    obtain ⟨_, rfl, ⟨⟩⟩ := line.required rfl
    have readLine : below? 4294967296 (.nat l.line.toNat) = answer true l.line.toNat :=
      if_pos l.line.toNat_lt
    rw [Location.ofJson?, some]
    refine bind_answer readLine (bind_answer (a := l.column.toNat)
      (column.read rfl _ (fun default => ?_) fun value h => ?_) ?_)
    · simpa [defaults, orDefault, eq_comm] using default
    · cases h
      exact if_pos l.column.toNat_lt
    · simp [answer]

/-- A location may be left out if it is nowhere. -/
theorem Location.field?_of_shown (l : Location)
    (h : ShownCell room ("location", l.toJson) cell good) :
    Location.field? room cell = answer good l := by
  refine h.read rfl _ (fun default => ?_) fun value h => l.ofJson?_of_shown h
  have same : l.toJson = nowhere.toJson := by simpa [defaults] using default
  have shown : Shown 1 l.toJson nowhere.toJson true := by
    rw [same]
    exact shown_self _ (by decide)
  exact l.ofJson?_of_shown shown

/-! ## Kinds -/

/-- Reads a thing with a location, given how its kind is read. -/
def located? {α : Type} (read : Nat → Location → Json → Option α) : Nat → Json → Option α
  | 0, _ => none
  | room + 1, json =>
    match json.record? Location.shapeOfKind with
    | some [some kind, location] => do
      let location ← Location.field? room location
      read room location kind
    | _ => none

section Located

variable {α : Type} {read : Nat → Location → Json → Option α} {a : α} {l : Location}
  {kind payload : Json} {name : String}

theorem located?_of_kind (h : Shown room (l.withKind kind) json good)
    (readKind : ∀ {room cell good}, ShownCell room ("kind", kind) cell good →
      ∃ json, cell = some json ∧ read room l json = answer good a) : located? read room json
        = answer good a := by
  obtain ⟨r, rfl, ⟨rfl, none⟩ | ⟨cells, some, h⟩⟩ := record?_of_shown Location.shapeOfKind h rfl
  · rw [located?, none]
    rfl
  · obtain _ | ⟨hk, _ | ⟨hl, ⟨⟩⟩⟩ := h
    obtain ⟨_, rfl, readKind⟩ := readKind hk
    rw [located?, some, Bool.and_true, Bool.and_comm]
    exact bind_answer (l.field?_of_shown hl) readKind

theorem located?_of_payload (h : Shown room (l.withKind (ofVariant name payload)) json good)
    (known : payloads.contains name = true)
      (readPayload : ∀ {room json good}, Shown room payload json good →
      read (room + 1) l (ofVariant name json) = answer good a) : located? read room json
        = answer good a := by
  refine located?_of_kind h fun kind => ?_
  cases kind with
  | there h =>
    obtain ⟨r, _, rfl, rfl, shown⟩ := h.variant_cases known
    exact ⟨_, rfl, readPayload shown⟩
  | missing default => simp [defaults] at default

/-- A kind whose payload is a record. -/
theorem located?_of_record (shape : List Field) {fields : List (String × Json)}
    (h : Shown room (l.withKind (ofVariant name (ofFields fields))) json good)
    (known : payloads.contains name = true)
    (described : describes shape (fields.map fun field => (some field.1, field.2)) = true)
    (failed : ∀ {room json}, json.record? shape = none →
      read (room + 2) l (ofVariant name json) = none)
    (readFields : ∀ {room json cells good}, json.record? shape = some cells →
      ShownFields room (fields.map fun field => (some field.1, field.2)) cells good →
      read (room + 2) l (ofVariant name json) = answer good a) : located? read room json
        = answer good a := by
  refine located?_of_payload h known fun h => ?_
  obtain ⟨r, rfl, ⟨rfl, none⟩ | ⟨cells, some, h⟩⟩ := record?_of_shown shape h described
  · exact failed none
  · exact readFields some h

end Located

/-! ## Expressions -/

theorem Literal.ofJson?_of_shown (value : Literal) (h : Shown room value.toJson json good) :
    Literal.ofJson? room json = answer good value := by
  cases value with
  | int | byte | bool | string =>
    obtain ⟨r, _, rfl, rfl, payload⟩ := h.variant_cases rfl
    cases payload
    rfl

theorem Arithmetic.ofName?_name (operator : Arithmetic) :
    ofName? operator.name = some operator := by
  cases operator <;> rfl

theorem Comparison.ofName?_name (operator : Comparison) :
    ofName? operator.name = some operator := by
  cases operator <;> rfl

theorem Expr.ofJson?_eq : Expr.ofJson? room json = located? Expr.ofKind? room json := by
  unfold Expr.ofJson? located?
  cases room <;> rfl

mutual

theorem Expr.ofJson?_of_shown {room : Nat} {json : Json} {good : Bool} :
    ∀ e : Expr, Shown room e.toJson json good → Expr.ofJson? room json = answer good e
  | .literal l value, h =>
    Expr.ofJson?_eq.trans (located?_of_payload h rfl fun h =>
      map_answer (value.ofJson?_of_shown h) _)
  | .identifier l name, h =>
    Expr.ofJson?_eq.trans (located?_of_payload h rfl fun h => map_answer (text?_of_shown h) _)
  | .call l name arguments, h => by
    refine Expr.ofJson?_eq.trans (located?_of_record
      [⟨"name", false⟩, ⟨"arguments", false⟩] h rfl rfl (fun {room _} none => ?_) fun some h => ?_)
    · cases room with
      | zero => rfl
      | succ room => rw [ofVariant, Expr.ofKind?, none]
    · obtain _ | ⟨hn, _ | ⟨ha, ⟨⟩⟩⟩ := h
      obtain ⟨_, rfl, shownName⟩ := hn.required rfl
      obtain ⟨_, rfl, shownList⟩ := ha.required rfl
      obtain ⟨r, items, rfl, rfl, shown⟩ := shownList.list_cases
      rw [ofVariant, Expr.ofKind?, some]
      exact bind_answer (text?_of_shown shownName)
        (bind_answer (Expr.mapM_of_shown arguments shown) rfl)
  | .not l operand, h =>
    Expr.ofJson?_eq.trans (located?_of_payload h rfl fun h =>
      map_answer (operand.ofJson?_of_shown h) _)
  | .and l left right, h | .or l left right, h => by
    refine Expr.ofJson?_eq.trans (located?_of_record pairShape h rfl rfl (fun none => ?_)
      fun some h => ?_)
    · rw [ofVariant, Expr.ofKind?, none]
    · obtain _ | ⟨hl, _ | ⟨hr, ⟨⟩⟩⟩ := h
      obtain ⟨_, rfl, shownLeft⟩ := hl.required rfl
      obtain ⟨_, rfl, shownRight⟩ := hr.required rfl
      rw [ofVariant, Expr.ofKind?, some]
      exact bind_answer (left.ofJson?_of_shown shownLeft)
        (bind_answer (right.ofJson?_of_shown shownRight) rfl)
  | .arithmetic l operator left right, h | .comparison l operator left right, h => by
    refine Expr.ofJson?_eq.trans (located?_of_record operatorShape h rfl rfl (fun none => ?_)
      fun some h => ?_)
    · rw [ofVariant, Expr.ofKind?, none]
    · obtain _ | ⟨op, _ | ⟨hl, _ | ⟨hr, ⟨⟩⟩⟩⟩ := h
      obtain ⟨_, rfl, rfl, readOp⟩ := op.variant
      obtain ⟨_, rfl, shownLeft⟩ := hl.required rfl
      obtain ⟨_, rfl, shownRight⟩ := hr.required rfl
      rw [ofVariant, Expr.ofKind?, some]
      refine bind_answer ?_ (bind_answer (left.ofJson?_of_shown shownLeft)
        (bind_answer (right.ofJson?_of_shown shownRight) rfl))
      exact (congrArg (Option.bind · _) readOp).trans operator.ofName?_name
  | .cast l target operand, h => by
    refine Expr.ofJson?_eq.trans (located?_of_record
      [⟨"target", false⟩, ⟨"operand", false⟩] h rfl rfl (fun none => ?_) fun some h => ?_)
    · rw [ofVariant, Expr.ofKind?, none]
    · obtain _ | ⟨ht, _ | ⟨ho, ⟨⟩⟩⟩ := h
      obtain ⟨_, rfl, shownTarget⟩ := ht.required rfl
      obtain ⟨_, rfl, shownOperand⟩ := ho.required rfl
      rw [ofVariant, Expr.ofKind?, some]
      exact bind_answer (text?_of_shown shownTarget)
        (bind_answer (operand.ofJson?_of_shown shownOperand) rfl)
  | .conditional l condition thenValue elseValue, h => by
    refine Expr.ofJson?_eq.trans (located?_of_record
      [⟨"condition", false⟩, ⟨"then_value", false⟩, ⟨"else_value", false⟩] h rfl rfl
        (fun none => ?_) fun some h => ?_)
    · rw [ofVariant, Expr.ofKind?, none]
    · obtain _ | ⟨hc, _ | ⟨ht, _ | ⟨he, ⟨⟩⟩⟩⟩ := h
      obtain ⟨_, rfl, shownCondition⟩ := hc.required rfl
      obtain ⟨_, rfl, shownThen⟩ := ht.required rfl
      obtain ⟨_, rfl, shownElse⟩ := he.required rfl
      rw [ofVariant, Expr.ofKind?, some]
      exact bind_answer (condition.ofJson?_of_shown shownCondition)
        (bind_answer (thenValue.ofJson?_of_shown shownThen)
          (bind_answer (elseValue.ofJson?_of_shown shownElse) rfl))

theorem Expr.mapM_of_shown {room : Nat} {items : List Json} {good : Bool} :
    ∀ es : List Expr, ShownItems room (Expr.listToJson es) items good →
      items.mapM (Expr.ofJson? room) = answer good es
  | [], h => by
    cases h
    rfl
  | e :: es, h => by
    obtain _ | ⟨first, rest⟩ := h
    exact mapM_cons_answer (e.ofJson?_of_shown first) (Expr.mapM_of_shown es rest)

end

theorem Expr.toJson_eq_object (e : Expr) :
    ∃ fields, e.toJson = .object fields := by cases e <;> exact ⟨_, rfl⟩

theorem Expr.optional_of_shown (value : Option Expr)
    (h : Shown room (Expr.optionToJson value) json good) :
    Json.optional (Expr.ofJson? room) (some json) = answer good value := by
  cases value with
  | none =>
    cases h
    rfl
  | some e =>
    obtain ⟨fields, eq⟩ := e.toJson_eq_object
    have shown : Shown room e.toJson json good := h
    exact Json.optional_of_shown (eq ▸ shown) (e.ofJson?_of_shown h)

/-! ## Statements -/

theorem Stmt.ofJson?_eq : Stmt.ofJson? room json = located? Stmt.ofKind? room json := by
  unfold Stmt.ofJson? located?
  cases room <;> rfl

theorem Stmt.toJson_eq_object (s : Stmt) :
    ∃ fields, s.toJson = .object fields := by cases s <;> exact ⟨_, rfl⟩

mutual

theorem Stmt.ofJson?_of_shown {room : Nat} {json : Json} {good : Bool} :
    ∀ s : Stmt, Shown room s.toJson json good → Stmt.ofJson? room json = answer good s
  | .declaration l type name initializer, h => by
    refine Stmt.ofJson?_eq.trans (located?_of_record [⟨"ty", false⟩, ⟨"name", false⟩,
      ⟨"initializer", false⟩] h rfl rfl (fun none => ?_) fun {r _ _ _} some h => ?_)
    · rw [ofVariant, Stmt.ofKind?, none]
    · obtain _ | ⟨ht, _ | ⟨hn, _ | ⟨hi, ⟨⟩⟩⟩⟩ := h
      obtain ⟨_, rfl, shownType⟩ := ht.required rfl
      obtain ⟨_, rfl, shownName⟩ := hn.required rfl
      rw [ofVariant, Stmt.ofKind?, some]
      refine bind_answer (text?_of_shown shownType) (bind_answer (text?_of_shown shownName)
        (bind_answer (hi.read rfl _ (fun default => ?_)
          fun value h => Expr.optional_of_shown initializer h) rfl))
      have shown : Shown r (Expr.optionToJson initializer) .null true := by
        rw [show Expr.optionToJson initializer = .null by simpa [defaults] using default]
        exact .null
      exact Expr.optional_of_shown initializer shown
  | .assignment l name value, h => by
    refine Stmt.ofJson?_eq.trans (located?_of_record [⟨"name", false⟩, ⟨"value", false⟩] h rfl rfl
      (fun none => ?_) fun some h => ?_)
    · rw [ofVariant, Stmt.ofKind?, none]
    · obtain _ | ⟨hn, _ | ⟨hv, ⟨⟩⟩⟩ := h
      obtain ⟨_, rfl, shownName⟩ := hn.required rfl
      obtain ⟨_, rfl, shownValue⟩ := hv.required rfl
      rw [ofVariant, Stmt.ofKind?, some]
      exact bind_answer (text?_of_shown shownName)
        (bind_answer (value.ofJson?_of_shown shownValue) rfl)
  | .expression l value, h => by
    refine Stmt.ofJson?_eq.trans (located?_of_payload h rfl fun h => ?_)
    rw [ofVariant, Stmt.ofKind?]
    exact map_answer (value.ofJson?_of_shown h) _
  | .conditional l condition thenBranch elseBranch, h => by
    refine Stmt.ofJson?_eq.trans (located?_of_record
      [⟨"condition", false⟩, ⟨"then_branch", false⟩, ⟨"else_branch", false⟩] h rfl rfl
        (fun none => ?_) fun {r _ _ _} some h => ?_)
    · rw [ofVariant, Stmt.ofKind?, none]
    · obtain _ | ⟨hc, _ | ⟨ht, _ | ⟨he, ⟨⟩⟩⟩⟩ := h
      obtain ⟨_, rfl, shownCondition⟩ := hc.required rfl
      obtain ⟨_, rfl, shownThen⟩ := ht.required rfl
      rw [ofVariant, Stmt.ofKind?, some]
      refine bind_answer (condition.ofJson?_of_shown shownCondition)
        (bind_answer (thenBranch.ofJson?_of_shown shownThen)
        (bind_answer (he.read rfl _ (fun default => ?_)
          fun value h => Stmt.optional_of_shown elseBranch h) rfl))
      have shown : Shown r (Stmt.optionToJson elseBranch) .null true := by
        rw [show Stmt.optionToJson elseBranch = .null by simpa [defaults] using default]
        exact .null
      exact Stmt.optional_of_shown elseBranch shown
  | .loop l condition body, h => by
    refine Stmt.ofJson?_eq.trans (located?_of_record
      [⟨"condition", false⟩, ⟨"body", false⟩] h rfl rfl (fun none => ?_) fun some h => ?_)
    · rw [ofVariant, Stmt.ofKind?, none]
    · obtain _ | ⟨hc, _ | ⟨hb, ⟨⟩⟩⟩ := h
      obtain ⟨_, rfl, shownCondition⟩ := hc.required rfl
      obtain ⟨_, rfl, shownBody⟩ := hb.required rfl
      rw [ofVariant, Stmt.ofKind?, some]
      exact bind_answer (condition.ofJson?_of_shown shownCondition)
        (bind_answer (body.ofJson?_of_shown shownBody) rfl)
  | .break l, h | .continue l, h => by
    refine Stmt.ofJson?_eq.trans (located?_of_kind h fun {room _ _} kind => ?_)
    -- The cases of the reader that come first ask for more or less room.
    cases kind with
    | there h =>
      cases h
      refine ⟨_, rfl, ?_⟩
      rcases room with _ | _ | room <;> rfl
    | missing default => simp [defaults] at default
    | @bare _ room =>
      refine ⟨_, rfl, ?_⟩
      rcases room with _ | room <;> rfl
  | .return l value, h => by
    refine Stmt.ofJson?_eq.trans (located?_of_payload h rfl fun h => ?_)
    rw [ofVariant, Stmt.ofKind?]
    exact map_answer (Expr.optional_of_shown value h) _
  | .block l body, h => by
    refine Stmt.ofJson?_eq.trans (located?_of_payload h rfl fun h => ?_)
    obtain ⟨r, items, rfl, rfl, shown⟩ := h.list_cases
    exact map_answer (Stmt.mapM_of_shown body shown) _

theorem Stmt.optional_of_shown {room : Nat} {json : Json} {good : Bool} :
    ∀ s : Option Stmt, Shown room (Stmt.optionToJson s) json good →
      Json.optional (Stmt.ofJson? room) (some json) = answer good s
  | none, h => by
    cases h
    rfl
  | some s, h => by
    obtain ⟨fields, eq⟩ := s.toJson_eq_object
    have shown : Shown room s.toJson json good := h
    exact Json.optional_of_shown (eq ▸ shown) (s.ofJson?_of_shown h)

theorem Stmt.mapM_of_shown {room : Nat} {items : List Json} {good : Bool} :
    ∀ ss : List Stmt, ShownItems room (Stmt.listToJson ss) items good →
      items.mapM (Stmt.ofJson? room) = answer good ss
  | [], h => by
    cases h
    rfl
  | s :: ss, h => by
    obtain _ | ⟨first, rest⟩ := h
    exact mapM_cons_answer (s.ofJson?_of_shown first) (Stmt.mapM_of_shown ss rest)

end

/-! ## Functions and programs -/

theorem Parameter.ofJson?_of_shown (p : Parameter) (h : Shown room p.toJson json good) :
    Parameter.ofJson? room json = answer good p := by
  obtain ⟨r, rfl, ⟨rfl, none⟩ | ⟨cells, some, h⟩⟩ :=
    record?_of_shown [⟨"ty", false⟩, ⟨"name", false⟩, ⟨"location", true⟩] h rfl
  · rw [Parameter.ofJson?, none]
    rfl
  · obtain _ | ⟨ht, _ | ⟨hn, _ | ⟨hl, ⟨⟩⟩⟩⟩ := h
    obtain ⟨_, rfl, shownType⟩ := ht.required rfl
    obtain ⟨_, rfl, shownName⟩ := hn.required rfl
    rw [Parameter.ofJson?, some]
    exact bind_answer (text?_of_shown shownType) (bind_answer (text?_of_shown shownName)
      (bind_answer (p.location.field?_of_shown hl) rfl))

theorem FunctionDef.ofJson?_of_shown (f : FunctionDef) (h : Shown room f.toJson json good) :
    FunctionDef.ofJson? room json = answer good f := by
  obtain ⟨r, rfl, ⟨rfl, none⟩ | ⟨cells, some, h⟩⟩ := record?_of_shown shape h rfl
  · cases r with
    | zero => rfl
    | succ r =>
      rw [FunctionDef.ofJson?, none]
      rfl
  · obtain _ | ⟨hn, _ | ⟨ht, _ | ⟨hp, _ | ⟨hb, _ | ⟨hl, ⟨⟩⟩⟩⟩⟩⟩ := h
    obtain ⟨_, rfl, shownName⟩ := hn.required rfl
    obtain ⟨_, rfl, shownType⟩ := ht.required rfl
    obtain ⟨_, rfl, shownBody⟩ := hb.required rfl
    obtain ⟨r, items, rfl, rfl, body⟩ := shownBody.list_cases
    rw [FunctionDef.ofJson?, some]
    refine bind_answer (text?_of_shown shownName) (bind_answer (text?_of_shown shownType)
      (bind_answer (hp.read rfl _ (fun default => ?_) fun value h => ?_)
        (bind_answer (Stmt.mapM_of_shown f.body body)
        (bind_answer (f.location.field?_of_shown hl) rfl))))
    · rw [show f.parameters = [] by simpa [defaults] using default]
      rfl
    · obtain ⟨_, items, ⟨⟩, rfl, parameters⟩ := h.list_cases
      exact Json.mapM_of_shown parameters fun p => p.ofJson?_of_shown

theorem Program.ofJson?_of_shown (p : Program) (h : Shown room p.toJson json good) :
    Program.ofJson? room json = answer good p := by
  obtain ⟨r, rfl, ⟨rfl, none⟩ | ⟨cells, some, h⟩⟩ := record?_of_shown [⟨"functions", false⟩] h rfl
  · cases r with
    | zero => rfl
    | succ r =>
      rw [Program.ofJson?, none]
      rfl
  · obtain _ | ⟨hf, ⟨⟩⟩ := h
    obtain ⟨_, rfl, shownFunctions⟩ := hf.required rfl
    obtain ⟨r, items, rfl, rfl, functions⟩ := shownFunctions.list_cases
    rw [Program.ofJson?, some]
    exact bind_answer (Json.mapM_of_shown functions fun f => f.ofJson?_of_shown) rfl

theorem Options.ofJson?_of_shown (options : Options) (h : Shown room options.toJson json good) :
    Options.ofJson? room json = answer good options := by
  obtain ⟨r, rfl, ⟨rfl, none⟩ | ⟨cells, some, h⟩⟩ :=
    record?_of_shown [⟨"emit_runtime", true⟩, ⟨"indent_width", true⟩] h rfl
  · rw [Options.ofJson?, none]
    rfl
  · obtain _ | ⟨hr, _ | ⟨hw, ⟨⟩⟩⟩ := h
    obtain ⟨_, rfl, ⟨⟩⟩ := hr.required rfl
    obtain ⟨_, rfl, ⟨⟩⟩ := hw.required rfl
    have width : below? 18446744073709551616 (.nat options.indentWidth.toNat)
        = answer true options.indentWidth.toNat :=
      if_pos options.indentWidth.toNat_lt
    rw [Options.ofJson?, some]
    refine bind_answer rfl (bind_answer width ?_)
    simp [answer]

/-! ## Texts -/

/-- Every presentation of a program is read as that program, from each of its texts; and if a record
in it repeats a field that it knows, nothing is read. -/
theorem Program.parse?_of_shown (p : Program) {text : String} (spells : Spells text json)
    (shown : Shown maxDepth p.toJson json good) :
    Program.parse? text = if good then some p else none := by
  unfold Program.parse?
  rw [parse?_of_spells spells]
  exact p.ofJson?_of_shown shown

/-- A main function with one statement. -/
def Program.breaking : Program :=
  { functions := [{ name := "main", returnType := "void", body := [.break .nowhere] }] }

/-- The program with fields in another order, without those that have their defaults, and with an
unknown one. -/
def Program.breakingJson (statement : Json) : Json :=
  .object [("note", .array [.nat 1]), ("functions", .array
    [.object [("return_type", ofText "void"), ("name", ofText "main"),
      ("body", .array [statement])]])]

theorem Program.shown_breakingJson {statement : Json}
    (h : Shown 123 (Stmt.break .nowhere).toJson statement good) :
    Shown maxDepth breaking.toJson (breakingJson statement) good := by
  suffices all : Shown maxDepth breaking.toJson (breakingJson statement)
      (((true && (true && (true && ((good && true) && (true && true))))) && true) && true) by
    simpa only [Bool.and_true, Bool.true_and] using all
  refine @Shown.object _ _ _ _ [("note", .array [.nat 1])] _ rfl
    (.cons (.there (.list (.cons ?_ .nil))) .nil) (by simp) (.swap _ _ _)
  exact @Shown.object _ _ _ _ [] _ rfl (.cons (.there .string) (.cons (.there .string) (.cons
    (.missing (by simp [defaults])) (.cons (.there (.list (.cons h .nil)))
      (.cons (.missing (by simp [defaults])) .nil)))))
    (by simp) (.swap _ _ _)

/-- It is read if the kind of the statement is an object, but not if the statement has two kinds. -/
theorem Program.breaking_read :
    Program.parse? (breakingJson (.object [("kind", .object [("Break", .null)])])).render
      = some breaking ∧
      Program.parse? (breakingJson (.object [("kind", ofText "Break"), ("kind", .null)])).render
        = none := by
  have bare : Shown 123 (Stmt.break .nowhere).toJson
      (.object [("kind", .object [("Break", .null)])]) true :=
    .object rfl (.cons (.bare (by decide)) (.cons (.missing (by simp [defaults])) .nil))
      (by simp) (.refl _)
  have twice : Shown 123 (Stmt.break .nowhere).toJson
      (.object [("kind", ofText "Break"), ("kind", .null)]) false :=
    .repeated rfl mem_cons_self (by decide)
  exact ⟨parse?_of_shown breaking (spells_render rfl) (shown_breakingJson bare),
    parse?_of_shown breaking (spells_render rfl) (shown_breakingJson twice)⟩

end Backpatch
