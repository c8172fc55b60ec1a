import Mathlib.Data.List.Nodup
import Backpatch.Program.Writer
import Backpatch.Proofs.Json.Text

/-!
# Presentations

A value is written in one way, and may be shown in many others (`Shown`): a record with its fields
in any order, with unknown fields among them and without those that have their defaults, or as an
array of all of them; and a variant without a payload as an object. Of all of these a record has the
same cells (`record?_of_shown`), but for those that repeat a field: of them nothing is read.
-/

namespace Backpatch.Json

open List

/-! ## The relation -/

/-- The fields that may be left out, each with its default. -/
def defaults : List (String × Json) :=
  [("column", .nat 0), ("location", Location.nowhere.toJson), ("parameters", .array []),
   ("initializer", .null), ("else_branch", .null)]

/-- The fields that hold variants, with a payload or without. -/
def variantFields : List String := ["kind", "op"]

/-- The variants that have a payload. -/
def payloads : List String :=
  ["Int", "Byte", "Bool", "String", "Literal", "Identifier", "Call", "Not", "And", "Or", "Binary",
   "Relational", "Cast", "Conditional", "Declaration", "Assignment", "Expression", "If", "While",
   "Return", "Block"]

/-- An object with these fields is no variant. -/
def isRecord : List (Text × Json) → Bool
  | [(some name, _)] => name ∉ payloads
  | _ => true

/-- The fields of a record that are there. -/
def present : List (Text × Json) → List (Option Json) → List (Text × Json)
  | (name, _) :: fields, some json :: cells => (name, json) :: present fields cells
  | _ :: fields, none :: cells => present fields cells
  | _, _ => []

mutual

/-- The second value shows the first, with no more brackets around anything than there is room for;
what stands in an unknown field does not count. It shows it well if no record in it repeats a field
that it knows. -/
inductive Shown : Nat → Json → Json → Bool → Prop
  | null : Shown room .null .null true
  | bool : Shown room (.bool value) (.bool value) true
  | nat : Shown room (.nat value) (.nat value) true
  | number : Shown room (.number spelling) (.number spelling) true
  | string : Shown room (.string text) (.string text) true
  | list (h : ShownItems room items items' good) : Shown (room + 1) (.array items)
    (.array items') good
  | variant (payload : name ∈ payloads) (h : Shown room json json' good) :
      Shown (room + 1) (.object [(some name, json)]) (.object [(some name, json')]) good
  | array (record : isRecord fields = true) (h : ShownFields room fields (items.map some) good) :
      Shown (room + 1) (.object fields) (.array items) good
  | object (record : isRecord fields = true) (h : ShownFields room fields cells good)
      (unknown : ∀ other ∈ others, other.1.isSome = true ∧ other.1 ∉ fields.map Prod.fst)
      (order : shown ~ present fields cells ++ others) :
      Shown (room + 1) (.object fields) (.object shown) good
  | repeated (record : isRecord fields = true) (known : name ∈ fields.map Prod.fst)
      (twice : 1 < (shown.map Prod.fst).count name) :
      Shown (room + 1) (.object fields) (.object shown) false

inductive ShownItems : Nat → List Json → List Json → Bool → Prop
  | nil : ShownItems room [] [] true
  | cons (head : Shown room json json' good) (tail : ShownItems room items items' good') :
      ShownItems room (json :: items) (json' :: items') (good && good')

/-- The cells of a record, one for each of its fields. -/
inductive ShownFields : Nat → List (Text × Json) → List (Option Json) → Bool → Prop
  | nil : ShownFields room [] [] true
  | cons (head : ShownCell room field cell good) (tail : ShownFields room fields cells good') :
      ShownFields room (field :: fields) (cell :: cells) (good && good')

inductive ShownCell : Nat → Text × Json → Option Json → Bool → Prop
  | there (h : Shown room json json' good) : ShownCell room (name, json) (some json') good
  | missing (default : (name, json) ∈ defaults) : ShownCell room (some name, json) none true
  | bare (h : name ∈ variantFields) :
      ShownCell (room + 1) (some name, .string text) (some (.object [(text, .null)])) true

end

/-! ## Depth -/

mutual

/-- How deep the brackets of a value nest. -/
def depth : Json → Nat
  | .null | .bool _ | .nat _ | .number _ | .string _ => 0
  | .array items => depthItems items + 1
  | .object fields => depthFields fields + 1

def depthItems : List Json → Nat
  | [] => 0
  | item :: items => max (depth item) (depthItems items)

def depthFields : List (Text × Json) → Nat
  | [] => 0
  | (_, value) :: fields => max (depth value) (depthFields fields)

end

/-- An object shows itself if its values do. -/
theorem shown_object {room : Nat} {fields : List (Text × Json)}
    (values : ∀ field ∈ fields, Shown room field.2 field.2 true) :
    Shown (room + 1) (.object fields) (.object fields) true := by
  by_cases record : isRecord fields = true
  · have cells : ShownFields room fields (fields.map fun field => some field.2) true ∧
        present fields (fields.map fun field => some field.2) = fields := by
      clear record
      induction fields with
      | nil => exact ⟨.nil, rfl⟩
      | cons field fields ih =>
        obtain ⟨first, rest⟩ := forall_mem_cons.mp values
        exact ⟨.cons (.there first) (ih rest).1, congrArg _ (ih rest).2⟩
    refine @Shown.object _ _ _ _ [] _ record cells.1 (by simp) ?_
    rw [cells.2, List.append_nil]
  · unfold isRecord at record
    split at record
    · exact .variant (by simpa using record) (values _ mem_cons_self)
    · exact absurd rfl record

mutual

/-- Every value shows itself. -/
theorem shown_self {room : Nat} : ∀ json : Json, json.depth ≤ room → Shown room json json true
  | .null, _ => .null
  | .bool _, _ => .bool
  | .nat _, _ => .nat
  | .number _, _ => .number
  | .string _, _ => .string
  | .array items, deep => by
    rw [depth] at deep
    cases room with
    | zero => cases deep
    | succ room => exact .list (shownItems_self items (Nat.le_of_succ_le_succ deep))
  | .object fields, deep => by
    rw [depth] at deep
    cases room with
    | zero => cases deep
    | succ room => exact shown_object (shownFields_self fields (Nat.le_of_succ_le_succ deep))

theorem shownItems_self {room : Nat} : ∀ items : List Json, depthItems items ≤ room →
    ShownItems room items items true
  | [], _ => .nil
  | item :: items, deep => by
    rw [depthItems, Nat.max_le] at deep
    exact .cons (item.shown_self deep.1) (shownItems_self items deep.2)

theorem shownFields_self {room : Nat} : ∀ fields : List (Text × Json), depthFields fields ≤ room →
    ∀ field ∈ fields, Shown room field.2 field.2 true
  | [], _ => by simp
  | (_, value) :: fields, deep => by
    rw [depthFields, Nat.max_le] at deep
    exact forall_mem_cons.mpr ⟨value.shown_self deep.1, shownFields_self fields deep.2⟩

end

/-! ## Records -/

variable {room : Nat} {fields shown : List (Text × Json)} {cells : List (Option Json)} {name : Text}
  {good : Bool}

theorem ShownFields.length_eq (h : ShownFields room fields cells good) :
    cells.length = fields.length := by
  induction cells generalizing fields good with
  | nil =>
    cases h
    rfl
  | cons cell cells ih =>
    cases h with
    | cons _ tail => exact congrArg Nat.succ (ih tail)

/-- The fields with the given name. -/
def under (name : Text) (fields : List (Text × Json)) : List (Text × Json) :=
  fields.filter fun field => field.1 == name

theorem length_under (name : Text) (fields : List (Text × Json)) :
    (under name fields).length = fields.countP fun field => field.1 == name :=
  countP_eq_length_filter.symm

theorem lookup_eq_head?_under (name : Text) (fields : List (Text × Json)) :
    fields.lookup name = (under name fields).head?.map Prod.snd := by
  induction fields with
  | nil => rfl
  | cons field fields ih =>
    rw [lookup_cons, under, filter_cons, BEq.comm]
    cases field.1 == name with
    | true => rfl
    | false => exact ih

theorem mem_keys_of_mem_present {field : Text × Json} (h : field ∈ present fields cells) :
    field.1 ∈ fields.map Prod.fst := by
  fun_induction present fields cells with
  | case1 _ _ _ _ _ ih =>
    rcases mem_cons.mp h with rfl | h
    · exact mem_cons_self
    · exact mem_cons_of_mem _ (ih h)
  | case2 _ _ _ ih => exact mem_cons_of_mem _ (ih h)
  | case3 => cases h

/-- A record has its cells wherever its fields stand, and each of them once. -/
theorem cells_of_under (count : cells.length = fields.length) (nodup : (fields.map Prod.fst).Nodup)
    (same : ∀ name ∈ fields.map Prod.fst, under name shown ~ under name (present fields cells)) :
    (∀ name ∈ fields.map Prod.fst, (under name shown).length ≤ 1) ∧
      (fields.map Prod.fst).map (fun name => shown.lookup name) = cells := by
  induction fields generalizing cells with
  | nil => exact ⟨by simp, (length_eq_zero_iff.mp count).symm⟩
  | cons field fields ih =>
    cases cells with
    | nil => cases count
    | cons cell cells =>
      obtain ⟨name, value⟩ := field
      obtain ⟨fresh, nodup⟩ := nodup_cons.mp nodup
      obtain ⟨first, rest⟩ := forall_mem_cons.mp same
      have others : ∀ other ∈ fields.map Prod.fst, under other shown ~ under other
          (present fields cells) := by
        intro other mem
        have rest := rest other mem
        cases cell with
        | none => exact rest
        | some json =>
          have ne : name ≠ other := fun eq => fresh (eq ▸ mem)
          rwa [present, under.eq_1 _ (_ :: _), filter_cons_of_neg (by simpa using ne)] at rest
      obtain ⟨once, found⟩ := ih (Nat.succ.inj count) nodup others
      have nothing : under name (present fields cells) = [] := by
        refine filter_eq_nil_iff.mpr fun field mem same => fresh ?_
        have known := mem_keys_of_mem_present mem
        rwa [eq_of_beq same] at known
      have alone : under name shown = cell.toList.map (Prod.mk name) := by
        cases cell with
        | none => exact perm_nil.mp (nothing ▸ first)
        | some json =>
          rw [present, under.eq_1 _ (_ :: _), filter_cons_of_pos (by simp), ← under,
            nothing] at first
          exact perm_singleton.mp first
      rw [map_cons, map_cons, found, lookup_eq_head?_under, forall_mem_cons, alone]
      cases cell with
      | none => exact ⟨⟨Nat.zero_le 1, once⟩, rfl⟩
      | some json => exact ⟨⟨Nat.le_refl 1, once⟩, rfl⟩

/-- The fields are those of the shape, each with its own name, and none with that of a variant. -/
def describes (shape : List Field) (fields : List (Text × Json)) : Bool :=
  fields.map Prod.fst = (shape.map Field.name).map some ∧ (shape.map Field.name).Nodup ∧
    ∀ name ∈ shape.map Field.name, name ∉ payloads

/-- What is read of a shown record. -/
theorem record?_of_shown (shape : List Field) {json : Json}
    (h : Shown room (.object fields) json good) (described : describes shape fields = true) :
    ∃ r, room = r + 1 ∧ (good = false ∧ json.record? shape = none ∨
      ∃ cells, json.record? shape = some cells ∧ ShownFields r fields cells good) := by
  obtain ⟨names, nodup, record⟩ := of_decide_eq_true described
  have length : fields.length = shape.length := by simpa using congrArg length names
  cases h with
  | @array _ r _ items _ h =>
    have count : items.length = shape.length := by
      rw [← length, ← h.length_eq, length_map]
    have none : (shape.drop items.length).all Field.hasDefault = true := by
      rw [count, drop_length]
      rfl
    refine ⟨r, rfl, .inr ⟨_, if_pos ⟨Nat.le_of_eq count, none⟩, ?_⟩⟩
    rwa [count, Nat.sub_self, replicate_zero, List.append_nil]
  | @object _ r cells _ others shown _ h unknown order =>
    -- None of the other fields has a name that the record knows.
    have same : ∀ name ∈ fields.map Prod.fst, under name shown ~ under name
        (present fields cells) := by
      intro name known
      have none : under name others = [] :=
        filter_eq_nil_iff.mpr fun other mem same => (unknown other mem).2 (eq_of_beq same ▸ known)
      have order := order.filter fun field => field.1 == name
      rwa [filter_append, ← under, ← under, ← under, none, List.append_nil] at order
    obtain ⟨single, found⟩ :=
      cells_of_under h.length_eq (names ▸ nodup.map fun _ _ => Option.some.inj) same
    have texts : shown.all (fun field => field.1.isSome) = true := by
      refine all_eq_true.mpr fun field mem => ?_
      rcases mem_append.mp (order.mem_iff.mp mem) with mem | mem
      · have known := mem_keys_of_mem_present mem
        obtain ⟨_, -, eq⟩ := mem_map.mp (names ▸ known)
        rw [← eq]
        rfl
      · exact (unknown field mem).1
    have known : shape.all (fun known => shown.countP (fun field => field.1 == some known.name) ≤ 1)
        = true := by
      refine all_eq_true.mpr fun field mem => decide_eq_true ?_
      rw [← length_under]
      exact single _ (names ▸ mem_map_of_mem (mem_map_of_mem mem))
    rw [names, map_map, map_map] at found
    exact ⟨r, rfl, .inr ⟨_, if_pos ⟨texts, known⟩, found ▸ h⟩⟩
  | @repeated _ name r shown _ known twice =>
    refine ⟨r, rfl, .inl ⟨rfl, if_neg ?_⟩⟩
    rintro ⟨-, once⟩
    rw [names, map_map] at known
    obtain ⟨field, mem, rfl⟩ := mem_map.mp known
    have once := of_decide_eq_true (all_eq_true.mp once field mem)
    rw [count, countP_map] at twice
    exact absurd twice (Nat.not_lt.mpr once)
  | @variant name _ _ _ _ payload =>
    have mem : some name ∈ (shape.map Field.name).map some := names ▸ mem_cons_self
    obtain ⟨_, mem, ⟨⟩⟩ := mem_map.mp mem
    exact absurd payload (record name mem)

end Backpatch.Json
