import Backpatch.Proofs.Core.Marks
import Backpatch.Proofs.Machine.Image
import Backpatch.Proofs.Output.Types

/-!
# Ranges of values

Bytes and truth values are kept in words. In every state of every run of the finished code they stay
in their ranges, wherever they are: in the registers of expressions, in the places of variables and
parameters, as arguments and as results (`Program.compile_ranges`).

A register is filled by one line only, so it is enough to say of each line what it can give
(`Survey.Gives`). Memory is harder, since variables whose scopes are apart share places: what is
known of a place depends on what is in scope (`Survey.Cells`).
-/

namespace Backpatch

open List

/-! ## Ranges of types -/

/-- The value is one of the type: bytes and truth values are numbers in their ranges. -/
def Ty.Holds : Ty → Datum → Prop
  | byte, d => ∃ w : Word, d = .word w ∧ w.toNat ≤ 255
  | bool, d => ∃ w : Word, d = .word w ∧ w.toNat ≤ 1
  | int, _ | string, _ | void, _ | invalid, _ => True

namespace Ty

theorem holds_zero (type : Ty) : type.Holds (.word 0) := by
  cases type with
  | byte | bool => exact ⟨0, rfl, by decide⟩
  | int | string | void | invalid => trivial

theorem Holds.convert {a b : Ty} {d : Datum} (h : a.Holds d) (converts : a.convertibleTo b = true) :
    b.Holds d := by
  cases b with
  | byte | bool => cases a <;> first | exact h | cases converts
  | int | string | void | invalid => trivial

theorem Holds.castUp {a b : Ty} {d : Datum} (h : a.Holds d ∨ b.Holds d) :
    (Ty.castUp a b).Holds d := by
  cases a <;> cases b <;> first | trivial | exact h.elim id id

theorem holds_of_includes {type : Ty} {n : Int} (h : type.Includes n) :
    type.Holds (.word (BitVec.ofInt 32 n)) := by
  cases type with
  | byte =>
    obtain ⟨low, high⟩ := h
    refine ⟨_, rfl, ?_⟩
    rw [BitVec.toNat_ofInt]
    omega
  | int => trivial
  | bool | string | void | invalid => exact h.elim

end Ty

/-! ## Values in registers -/

namespace Survey

variable (K : Survey)

/-- The value is one that the operand can have. -/
def Offers : Operand → Datum → Prop
  | .number n, d => d = .word (BitVec.ofInt 32 n)
  | .register r, d => ∀ t type, (t, r) ∈ K.places → t.HasType K.types type → type.Holds d

/-- The value is one that the line can give. -/
def Gives : Instr → Datum → Prop
  | .allocaFrame _, d => d = .address .frame 0
  | .allocaSlot slot, d => d = .address slot 0
  | .slotAddress _ _ offset, d => d = .address .frame offset
  | .load _ pointer, d => ∀ place type, place.Stored K.frame → pointer = place.pointer K.frame →
      K.types.place place = some type → type.Holds d
  | .compute _ opcode left right, d => ∃ w : Word, d = .word w ∧
      (opcode = .add → left = .number 0 → ∀ n, right = .number n → w = BitVec.ofInt 32 n) ∧
      (opcode = .and → right = .number 255 → w.toNat ≤ 255)
  | .phi _ _ first _ second _, d => K.Offers first d ∨ K.Offers second d
  | .call _ name _, d => ∀ result parameters, K.types.functions name = some (result, parameters) →
    result.Holds d
  | _, _ => True

/-- Registers hold what their lines can give. -/
structure Values (values : Register → Option Datum) : Prop where
  lines : ∀ i ∈ K.lines, ∀ r d, i.result? = some r → values r = some d → K.Gives i d
  arguments : ∀ (index : Nat) type d, K.types.parameters[index]? = some type →
    values (.argument index) = some d → type.Holds d
  frame : ∀ d, values .frame = some d → d = .address .frame 0

/-- Every register is given by one line, and that of an expression by a line of its shape. The
registers with addresses are given by lines that make addresses. -/
structure Complete : Prop where
  results : (resultsOf K.lines).Nodup
  origins : Origins K.frame K.places K.lines
  arguments : ∀ index, .argument index ∉ resultsOf K.lines
  frame : ∀ i ∈ K.lines, i.result? = some .frame → ∃ size, i = .allocaFrame size
  slots : ∀ (index : Nat) slot, K.frame.slots[index]? = some (some slot) →
    .allocaSlot slot ∈ K.lines
  distinct : ∀ (i j : Nat) slot, K.frame.slots[i]? = some (some slot) →
    K.frame.slots[j]? = some (some slot) → i = j
  apart : ∀ p type (index : Nat), K.types.locals p = some type →
    K.frame.slots[index]? ≠ some (some (.temp p))

end Survey

namespace Survey

variable {K : Survey} {values : Register → Option Datum}

variable {i : Instr} {r : Register} {d : Datum}

theorem Complete.eq_of_result (hK : K.Complete) {j : Instr} (hi : i ∈ K.lines) (hj : j ∈ K.lines)
    (ri : i.result? = some r) (rj : j.result? = some r) : i = j :=
  eq_of_nodup_filterMap hK.results hi hj ri rj

theorem Complete.slot_ne_frame (hK : K.Complete) {index : Nat} {slot : Register}
    (found : K.frame.slots[index]? = some (some slot)) : slot ≠ .frame := by
  rintro rfl
  obtain ⟨size, eq⟩ := hK.frame _ (hK.slots _ _ found) rfl
  cases eq

/-- The place of an expression holds a value of its type. -/
theorem Values.expression (hK : K.Complete) (h : K.Values values) {type : Ty} :
    ∀ (t : Term), (t, r) ∈ K.places → t.HasType K.types type → values r = some d → type.Holds d
  | .number n, mem, typed, given => by
    obtain ⟨w, rfl, number, -⟩ := h.lines _ (hK.origins _ mem) r d rfl given
    rw [number rfl rfl n rfl]
    exact Ty.holds_of_includes typed
  | .text _, _, typed, _ => by
    rw [typed]
    trivial
  | .read place, mem, typed, given => by
    rcases hK.origins _ mem with ⟨stored, line⟩ | ⟨index, rfl, rfl⟩
    · exact h.lines _ line r d rfl given place type stored rfl typed.2
    · exact h.arguments index type d typed.2 given
  | .call name _ _, mem, typed, given => by
    obtain ⟨result, arguments, line⟩ := hK.origins _ mem
    obtain ⟨-, -, -, parameters, found, -⟩ := typed
    exact h.lines _ line r d rfl given type parameters found
  | .truth _, mem, typed, given => by
    obtain ⟨onTrue, onFalse, line⟩ := hK.origins _ mem
    rw [typed.1]
    rcases h.lines _ line r d rfl given with rfl | rfl
    · exact ⟨_, rfl, by decide⟩
    · exact ⟨_, rfl, by decide⟩
  | .arithmetic _ common _ _, mem, typed, given => by
    obtain ⟨rfl, a, b, -, -, ha, hb, rfl⟩ := typed
    have numeric := Ty.isNumeric_castUp ha hb
    cases eq : Ty.castUp a b with
    | byte =>
      obtain ⟨operand, line⟩ := hK.origins _ mem eq
      obtain ⟨w, rfl, -, cut⟩ := h.lines _ line r d rfl given
      exact ⟨w, rfl, cut rfl rfl⟩
    | bool =>
      rw [eq] at numeric
      cases numeric
    | int | string | void | invalid => trivial
  | .cut _, mem, typed, given => by
    obtain ⟨operand, line⟩ := hK.origins _ mem
    obtain ⟨w, rfl, -, cut⟩ := h.lines _ line r d rfl given
    rw [typed.1]
    exact ⟨w, rfl, cut rfl rfl⟩
  | .same operand, mem, typed, given => by
    obtain ⟨-, source, hs, converts⟩ := typed
    exact (h.expression hK operand (hK.origins _ mem) hs given).convert converts
  | .choice _ _ thenValue elseValue, mem, typed, given => by
    obtain ⟨_, first, _, second, _, line, hf, hs⟩ := hK.origins _ mem
    obtain ⟨-, -, -, -, a, b, ha, hb, rfl⟩ := typed
    rcases h.lines _ line r d rfl given with offers | offers
    · exact Ty.Holds.castUp (.inl (offers thenValue a hf ha))
    · exact Ty.Holds.castUp (.inr (offers elseValue b hs hb))

/-- A line fills its register. -/
theorem Values.set (hK : K.Complete) (h : K.Values values) (mem : i ∈ K.lines)
    (result : i.result? = some r)
    (gives : K.Gives i d) : K.Values fun r' => if r' = r then some d else values r' := by
  refine ⟨fun j memj r' d' result' given => ?_, fun index type d' found given => ?_,
    fun d' given => ?_⟩
  · split at given
    · rename_i same
      cases given
      rw [hK.eq_of_result memj mem (same ▸ result') result]
      exact gives
    · exact h.lines j memj r' d' result' given
  · split at given
    · rename_i same
      exact absurd (mem_filterMap.mpr ⟨i, mem, same ▸ result⟩) (hK.arguments index)
    · exact h.arguments index type d' found given
  · split at given
    · rename_i same
      cases given
      obtain ⟨size, rfl⟩ := hK.frame i mem (same ▸ result)
      exact gives
    · exact h.frame d' given

end Survey

/-! ## Values in memory -/

namespace Survey

/-- The variables in scope have values of their types in the frame. Where the own place of a
parameter has a value, it is one of its type. -/
structure Cells (K : Survey) (scope : Live) (m : Memory) : Prop where
  locals : ∀ q ∈ scope, ∃ w, m.read .frame q.2 = some w ∧
    ∀ type, K.types.locals q.1 = some type → type.Holds (.word w)
  parameters : ∀ (index : Nat) slot type w, K.frame.slots[index]? = some (some slot) →
    K.types.parameters[index]? = some type → m.read slot 0 = some w → type.Holds (.word w)

variable {K : Survey} {scope next : Live} {m m' : Memory}

theorem Cells.mono (h : K.Cells scope m) (sub : next ⊆ scope) : K.Cells next m :=
  ⟨fun q mem => h.locals q (sub mem), h.parameters⟩

/-- A block is reserved that was not there before. -/
theorem Cells.reserve (h : K.Cells scope m) {r : Register} (new : m r = none) (size : Nat) :
    K.Cells scope fun r' => if r' = r then some (replicate size none) else m r' := by
  have fresh (index : Int) :
      Memory.read (fun r' => if r' = r then some (replicate size none) else m r') r index
        = none := by
    unfold Memory.read
    simp only [if_true]
    split
    · rw [getElem?_replicate]
      split <;> rfl
    · rfl
  have same {r' : Register} (ne : r' ≠ r) (index : Int) :
      Memory.read (fun r' => if r' = r then some (replicate size none) else m r') r' index
        = m.read r' index := by
    unfold Memory.read
    simp only [ne, if_false]
  refine ⟨fun q mem => ?_, fun index slot type w found typed given => ?_⟩
  · obtain ⟨w, given, holds⟩ := h.locals q mem
    by_cases eq : Register.frame = r
    · unfold Memory.read at given
      rw [eq, new] at given
      cases given
    · exact ⟨w, (same eq q.2).trans given, holds⟩
  · by_cases eq : slot = r
    · rw [eq, fresh] at given
      cases given
    · rw [same eq] at given
      exact h.parameters index slot type w found typed given

/-- A variable gets a value, and no other one in scope has its place. -/
theorem Cells.write_local (hK : K.Complete) (h : K.Cells scope m) {p offset : Nat}
    {type : Ty} {w : Word} (typed : K.types.locals p = some type) (holds : type.Holds (.word w))
    (others : ∀ q ∈ next, q = (p, offset) ∨ q ∈ scope ∧ q.2 ≠ offset)
    (written : m.write .frame offset w = some m') :
    K.Cells next m' := by
  have reads := Memory.read_write written
  refine ⟨fun q mem => ?_, fun index slot type' w' found typed' given => ?_⟩
  · rcases others q mem with rfl | ⟨old, ne⟩
    · refine ⟨w, by simp [reads], fun type' typed' => ?_⟩
      rw [typed] at typed'
      cases typed'
      exact holds
    · obtain ⟨w', given, holds'⟩ := h.locals q old
      refine ⟨w', ?_, holds'⟩
      rw [reads, if_neg fun eq => ne (Int.ofNat.inj eq.2)]
      exact given
  · rw [reads, if_neg fun eq => hK.slot_ne_frame found eq.1] at given
    exact h.parameters index slot type' w' found typed' given

/-- A parameter gets a value. -/
theorem Cells.write_slot (hK : K.Complete) (h : K.Cells scope m) {index : Nat} {slot : Register}
    {type : Ty} {w : Word} (found : K.frame.slots[index]? = some (some slot))
    (typed : K.types.parameters[index]? = some type)
    (holds : type.Holds (.word w)) (written : m.write slot 0 w = some m') : K.Cells scope m' := by
  have reads := Memory.read_write written
  refine ⟨fun q mem => ?_, fun index' slot' type' w' found' typed' given => ?_⟩
  · obtain ⟨w', given, holds'⟩ := h.locals q mem
    refine ⟨w', ?_, holds'⟩
    rw [reads, if_neg fun eq => hK.slot_ne_frame found eq.1.symm]
    exact given
  · by_cases same : slot' = slot
    · subst same
      rw [hK.distinct index' index slot' found' found, typed] at typed'
      cases typed'
      rw [reads, if_pos ⟨rfl, rfl⟩] at given
      cases given
      exact holds
    · rw [reads, if_neg fun eq => same eq.1] at given
      exact h.parameters index' slot' type' w' found' typed' given

end Survey

/-! ## Lines -/

namespace Survey

variable {K : Survey} {scope next : Live} {M : Image} {overflow : Option Word}
  {a a' : Activation} {i : Instr}

variable {operand : Operand} {d : Datum} {block r pointer result : Register} {index : Int}

theorem Values.offers (hK : K.Complete) (h : K.Values a.values) (given : a.value operand = some d) :
    K.Offers operand d := by
  cases operand with
  | number n => exact (Option.some.inj given).symm
  | register r => exact fun t type mem typed => h.expression hK t mem typed given

/-- An operand that a line may store, pass or return is in range. -/
theorem Values.bounded (hK : K.Complete) (h : K.Values a.values) {type : Ty}
    (bounded : K.Bounded type operand) (given : a.value operand = some d) : type.Holds d := by
  cases operand with
  | number n =>
    cases bounded
    cases given
    exact type.holds_zero
  | register r =>
    rcases bounded with ⟨index, rfl, typed⟩ | ⟨t, mem, source, typed, converts⟩
    · exact h.arguments index type d typed given
    · exact (h.expression hK t mem typed given).convert converts

theorem value_of_word {w : Word} (h : a.word operand = some w) :
    a.value operand = some (.word w) := by
  unfold Activation.word at h
  split at h
  · rename_i eq
    cases h
    exact eq
  · cases h

theorem Values.address (h : K.Values a.values) {q : Nat × Nat} (addressed : K.Addressed q)
    (given : a.values (.temp q.1) = some (.address block index)) :
    block = .frame ∧ index = q.2 := by
  obtain ⟨size, line⟩ := addressed
  have address : Datum.address block index = .address .frame q.2 := h.lines _ line _ _ rfl given
  cases address
  exact ⟨rfl, rfl⟩

theorem Values.slot (hK : K.Complete) (h : K.Values a.values) {position : Nat} {slot : Register}
    (found : K.frame.slots[position]? = some (some slot))
    (given : a.values slot = some (.address block index)) :
    block = slot ∧ index = 0 := by
  have address : Datum.address block index = .address slot 0 :=
    h.lines _ (hK.slots position slot found) slot _ rfl given
  cases address
  exact ⟨rfl, rfl⟩

/-- The activation is the same but for registers and memory, which are as they should be. -/
def Lands (K : Survey) (next : Live) (a a' : Activation) : Prop :=
  a'.function = a.function ∧ a'.rest = a.rest ∧ K.Values a'.values ∧ K.Cells next a'.memory

variable (hK : K.Complete)

include hK

theorem lands_set (mem : i ∈ K.lines) (values : K.Values a.values) (cells : K.Cells next a.memory)
    (result : i.result? = some r) (gives : K.Gives i d) : K.Lands next a (a.set r d) :=
  ⟨rfl, rfl, values.set hK mem result gives, cells⟩

theorem lands_reserve (mem : i ∈ K.lines) (values : K.Values a.values)
    (cells : K.Cells next a.memory) {size : Nat} (result : i.result? = some r)
    (gives : K.Gives i (.address r 0)) (h : a.reserve r size = some a') : K.Lands next a a' := by
  unfold Activation.reserve at h
  split at h
  · cases h
  · rename_i new
    cases h
    exact ⟨rfl, rfl, values.set hK mem result gives, cells.reserve new size⟩

theorem lands_store {value : Operand} (values : K.Values a.values)
    (cells : K.Cells scope a.memory) (fits : K.Fits scope next (.store value pointer))
    (h : a.exec M overflow (.store value pointer) = some a') : K.Lands next a a' := by
  simp only [Activation.exec] at h
  split at h
  · rename_i w block index number target
    obtain ⟨m', written, h⟩ := Option.map_eq_some_iff.mp h
    cases h
    refine ⟨rfl, rfl, values, ?_⟩
    obtain ⟨place, stores⟩ := fits
    cases place with
    | «variable» p =>
      obtain ⟨rfl, ⟨type, typed, bounded⟩, offset, addressed, others⟩ := stores
      obtain ⟨rfl, rfl⟩ := values.address addressed target
      exact cells.write_local hK typed (values.bounded hK bounded (value_of_word number))
        others written
    | parameter position =>
      obtain ⟨sub, found, type, typed, bounded⟩ := stores
      obtain ⟨rfl, rfl⟩ := values.slot hK found target
      exact (cells.write_slot hK found typed (values.bounded hK bounded (value_of_word number))
        written).mono sub
  · cases h

theorem lands_load (mem : .load result pointer ∈ K.lines) (values : K.Values a.values)
    (cells : K.Cells scope a.memory) (fits : K.Fits scope next (.load result pointer))
    (h : a.exec M overflow (.load result pointer) = some a') : K.Lands next a a' := by
  obtain ⟨sub, place, loads⟩ := fits
  simp only [Activation.exec] at h
  split at h
  · rename_i block index target
    obtain ⟨w, read, h⟩ := Option.map_eq_some_iff.mp h
    cases h
    refine lands_set hK mem values (cells.mono sub) rfl fun other type stored same typed => ?_
    -- The place that is read is the one that the type is for: no two places have the same address.
    cases place with
    | «variable» p =>
      obtain ⟨rfl, offset, addressed, inside⟩ := loads
      obtain ⟨rfl, rfl⟩ := values.address addressed target
      obtain ⟨w', given, holds⟩ := cells.locals _ inside
      rw [read] at given
      cases given
      cases other with
      | «variable» p' =>
        cases same
        exact holds type typed
      | parameter position =>
        obtain ⟨slot, found⟩ := stored
        unfold Place.pointer at same
        simp only [found, Option.join_some, Option.getD_some] at same
        obtain ⟨size, line⟩ := addressed
        have lines :=
          hK.eq_of_result line (hK.slots position slot found) rfl (congrArg some same.symm)
        cases lines
    | parameter position =>
      obtain ⟨rfl, rfl⟩ := values.slot hK loads target
      cases other with
      | «variable» p =>
        have same : _ = Register.temp p := same
        exact absurd (same ▸ loads) (hK.apart p type position typed)
      | parameter position' =>
        obtain ⟨slot, found⟩ := stored
        unfold Place.pointer at same
        simp only [found, Option.join_some, Option.getD_some] at same
        subst same
        rw [hK.distinct position' position _ found loads] at typed
        exact cells.parameters position _ type w loads typed read
  · cases h

theorem lands_compute {opcode : Opcode} {left right : Operand}
    (mem : .compute result opcode left right ∈ K.lines) (values : K.Values a.values)
    (cells : K.Cells next a.memory)
    (h : a.exec M overflow (.compute result opcode left right) = some a') : K.Lands next a a' := by
  simp only [Activation.exec] at h
  split at h
  · rename_i x y first second
    obtain ⟨w, applied, h⟩ := Option.map_eq_some_iff.mp h
    cases h
    refine lands_set hK mem values cells rfl ⟨w, rfl, ?_, ?_⟩
    · rintro rfl rfl n rfl
      cases first
      cases second
      cases applied
      exact BitVec.zero_add _
    · rintro rfl rfl
      cases second
      cases applied
      rw [BitVec.toNat_and]
      exact Nat.le_trans Nat.and_le_right (by decide)
  · cases h

/-- What executing a line does to the registers and to memory. -/
theorem lands_exec (mem : i ∈ K.lines) (values : K.Values a.values) (cells : K.Cells scope a.memory)
    (fits : K.Fits scope next i) (h : a.exec M overflow i = some a') : K.Lands next a a' := by
  cases i with
  | allocaFrame size | allocaSlot slot =>
    exact lands_reserve hK mem values (cells.mono fits) rfl rfl h
  | store value pointer => exact lands_store hK values cells fits h
  | load result pointer => exact lands_load hK mem values cells fits h
  | compute => exact lands_compute hK mem values (cells.mono fits) h
  | compare | stringAddress =>
    simp only [Activation.exec] at h
    split at h
    · cases h
      exact lands_set hK mem values (cells.mono fits) rfl trivial
    · cases h
  | phi =>
    simp only [Activation.exec] at h
    split at h
    · obtain ⟨d, given, h⟩ := Option.map_eq_some_iff.mp h
      cases h
      exact lands_set hK mem values (cells.mono fits) rfl (.inl (values.offers hK given))
    · split at h
      · obtain ⟨d, given, h⟩ := Option.map_eq_some_iff.mp h
        cases h
        exact lands_set hK mem values (cells.mono fits) rfl (.inr (values.offers hK given))
      · cases h
  | slotAddress result size offset =>
    simp only [Activation.exec] at h
    split at h
    · rename_i block index given
      cases h
      have address := values.frame _ given
      cases address
      exact lands_set hK mem values (cells.mono fits) rfl (congrArg _ (Int.zero_add offset))
    · cases h
  | _ => cases h

end Survey

/-! ## Activations -/

/-- The activation executes the function, and its registers and memory are as they should be where
it is. -/
structure Activation.Follows (a : Activation) (f : Routine) (s : NameSupply) (Γ : Types) :
    Prop where
  function : a.function = f.function s
  position : ∃ before after, f.marks s = before ++ after ∧ a.rest = after.map Prod.snd ∧
    (f.survey s Γ).Cells (Survey.first [] after) a.memory
  values : (f.survey s Γ).Values a.values

section Activations

variable {f : Routine} {s : NameSupply} {Γ : Types} {a a' : Activation}

theorem exists_of_linesAfter {marks : List (Live × Instr)} {l : Label} {rest : List Instr}
    (h : linesAfter l (marks.map Prod.snd) = some rest) :
    ∃ before live after, marks = before ++ (live, .label l) :: after ∧
      rest = after.map Prod.snd := by
  induction marks with
  | nil => cases h
  | cons m marks ih =>
    rw [map_cons, linesAfter] at h
    split at h
    · rename_i label
      cases h
      exact ⟨[], m.1, marks, by rw [← label]; rfl, rfl⟩
    · obtain ⟨before, live, after, rfl, rfl⟩ := ih h
      exact ⟨m :: before, live, after, rfl, rfl⟩

/-- Control goes where nothing else is in scope. -/
theorem Activation.Follows.goto (sound : (f.survey s Γ).Sound (f.marks s) [])
    (function : a.function = f.function s) (values : (f.survey s Γ).Values a.values) {scope : Live}
    (cells : (f.survey s Γ).Cells scope a.memory)
    {target : Target} (leads : ∀ l ∈ target.toList, (f.survey s Γ).scopes l ⊆ scope)
    (h : a.goto target = some a') :
    a'.Follows f s Γ := by
  cases target with
  | none => cases h
  | some l =>
    obtain ⟨rest, found, h⟩ := Option.map_eq_some_iff.mp h
    cases h
    have body : a.function.body = (f.marks s).map Prod.snd := by
      rw [function]
      exact (f.map_marks s).symm
    rw [body] at found
    obtain ⟨before, live, after, eq, rfl⟩ := exists_of_linesAfter found
    rw [eq] at sound
    have here : (f.survey s Γ).Fits live (Survey.first [] after) (.label l) :=
      (Survey.sound_append.mp sound).2.1
    refine ⟨function, ⟨before ++ [(live, .label l)], after, ?_, rfl, ?_⟩, values⟩
    · rw [eq, append_assoc]
      rfl
    · exact cells.mono fun q mem => leads l (mem_singleton_self l) (here mem)

/-- A function begins with arguments of the types of its parameters. -/
theorem FunctionCode.follows_start (hK : (f.survey s Γ).Complete) {arguments : List Datum}
    (holds : ∀ (index : Nat) type d, Γ.parameters[index]? = some type → arguments[index]? = some d →
      type.Holds d) :
    ((f.function s).start arguments).Follows f s Γ := by
  refine ⟨rfl, ⟨[], f.marks s, rfl, (f.map_marks s).symm, ?_⟩, ?_, holds, fun d given => ?_⟩
  · rw [f.first_marks]
    refine ⟨forall_mem_nil _, fun index slot type w _ _ given => ?_⟩
    cases given
  · intro i mem r d result given
    cases r with
    | argument index => exact absurd (mem_filterMap.mpr ⟨i, mem, result⟩) (hK.arguments index)
    | _ => cases given
  · cases given

variable {arguments : List (IrType × Operand)}

theorem Activation.Follows.set (hK : (f.survey s Γ).Complete) (h : a.Follows f s Γ) {r : Register}
    {type : IrType}
    {name : String} (line : .call (some (r, type)) name arguments ∈ (f.function s).body) {d : Datum}
    (holds : ∀ result parameters, Γ.functions name = some (result, parameters) → result.Holds d) :
    (a.set r d).Follows f s Γ :=
  ⟨h.function, h.position, h.values.set hK line rfl holds⟩

/-- Arguments that are passed are in range. -/
theorem Survey.Passed.holds {K : Survey} (hK : K.Complete) (values : K.Values a.values)
    {types : List Ty} (passed : K.Passed arguments types) {data : List Datum}
    (given : (arguments.mapM fun argument => a.value argument.2) = some data) :
    ∀ (index : Nat) type d, types[index]? = some type → data[index]? = some d → type.Holds d := by
  induction arguments generalizing types data with
  | nil =>
    cases passed
    intro index type d found
    cases found
  | cons argument rest ih =>
    obtain ⟨first, types, rfl, bounded, passed⟩ := passed
    rw [mapM_cons] at given
    obtain ⟨d₀, here, given⟩ := Option.bind_eq_some_iff.mp given
    obtain ⟨data, later, given⟩ := Option.bind_eq_some_iff.mp given
    cases given
    intro index type d found located
    cases index with
    | zero =>
      cases found
      cases located
      exact values.bounded hK bounded here
    | succ index => exact ih passed later index type d found located

end Activations

/-! ## States -/

/-- Functions of a program that have been surveyed, with the names that are free before each and the
types of its own names. -/
abbrev Surveys := Routine → NameSupply → Types → Prop

/-- The image is the code of these functions. -/
structure Image.Surveyed (M : Image) (P : Surveys) : Prop where
  complete : ∀ f s Γ, P f s Γ → (f.survey s Γ).Complete
  sound : ∀ f s Γ, P f s Γ → (f.survey s Γ).Sound (f.marks s) []
  parameters : ∀ f s Γ, P f s Γ → Γ.parameters = f.parameters
  functions : ∀ f s Γ g s' Γ', P f s Γ → P g s' Γ' →
    Γ.functions g.name = some (g.returnType, g.parameters)
  found : ∀ name code, Primitive.ofName? name = none → M.function? name = some code →
    ∃ f s Γ, P f s Γ ∧ code = f.function s ∧ f.name = name

/-- The callers of a function follow their own functions, and wait for its result where they have
called it. -/
def Caller.Wait (P : Surveys) : Routine → List Caller → Prop
  | _, [] => True
  | f, c :: callers => ∃ g s Γ, P g s Γ ∧ c.activation.Follows g s Γ ∧
      (∀ r, c.result = some r →
        ∃ type arguments, .call (some (r, type)) f.name arguments ∈ (g.function s).body) ∧
      Wait P g callers

/-- Everything that is executed follows its function. -/
def State.Follows (P : Surveys) : State → Prop
  | running top callers _ => ∃ f s Γ, P f s Γ ∧ top.Follows f s Γ ∧ Caller.Wait P f callers
  | ended _ _ => True

section States

variable {M : Image} {P : Surveys} {overflow : Option Word} {f : Routine}
  {s : NameSupply} {Γ : Types}
  {a : Activation} {callers : List Caller} {trace : List Event} {st st' : State}

/-- A function returns to its caller. -/
theorem State.follows_leave (hM : M.Surveyed P) (hP : P f s Γ) (waits : Caller.Wait P f callers)
    {value : Option Datum} (holds : ∀ d, value = some d → f.returnType.Holds d)
    (h : State.leave trace callers value = some st') :
    st'.Follows P := by
  cases callers with
  | nil =>
    cases h
    trivial
  | cons c callers =>
    obtain ⟨g, s', Γ', hg, follows, line, waits⟩ := waits
    obtain ⟨result, caller⟩ := c
    cases result with
    | none =>
      cases value with
      | none =>
        cases h
        exact ⟨g, s', Γ', hg, follows, waits⟩
      | some d => cases h
    | some r =>
      cases value with
      | none => cases h
      | some d =>
        cases h
        obtain ⟨type, arguments, line⟩ := line r rfl
        refine ⟨g, s', Γ', hg, follows.set (hM.complete _ _ _ hg) line
          fun result parameters found => ?_, waits⟩
        rw [hM.functions _ _ _ _ _ _ hg hP] at found
        cases found
        exact holds d rfl

/-- A function is called, or something of the runtime is done. -/
theorem State.follows_call (hM : M.Surveyed P) (hP : P f s Γ) (follows : a.Follows f s Γ)
    (waits : Caller.Wait P f callers) {result : Option (Register × IrType)} {name : String}
    {arguments : List (IrType × Operand)} (line : .call result name arguments ∈ (f.function s).body)
    (calls : (f.survey s Γ).Calls name arguments) {data : List Datum}
    (given : (arguments.mapM fun argument => a.value argument.2) = some data)
    (h : State.call M a callers trace (result.map Prod.fst) name data = some st') :
    st'.Follows P := by
  unfold State.call at h
  split at h
  · obtain ⟨⟨events, status⟩, -, h⟩ := Option.map_eq_some_iff.mp h
    cases status with
    | none =>
      cases h
      exact ⟨f, s, Γ, hP, follows, waits⟩
    | some w =>
      cases h
      trivial
  · cases h
  · rename_i other
    split at h
    · rename_i code found
      split at h
      · cases h
        obtain ⟨g, s', Γ', hg, rfl, rfl⟩ := hM.found name code other found
        have known := hM.functions _ _ _ _ _ _ hP hg
        have holds : ∀ (index : Nat) type d, Γ'.parameters[index]? = some type →
            data[index]? = some d → type.Holds d := by
          -- The handler and `exit` are known by what they do, so neither is a function.
          rcases calls with handler | exit | ⟨result, parameters, signature, passed⟩
          · rw [handler] at other
            cases other
          · rw [exit] at other
            cases other
          · have signature : Γ.functions g.name = some (result, parameters) := signature
            rw [known] at signature
            cases signature
            rw [hM.parameters _ _ _ hg]
            exact passed.holds (hM.complete _ _ _ hP) follows.values given
        refine ⟨g, s', Γ', hg, FunctionCode.follows_start (hM.complete _ _ _ hg) holds, f, s, Γ, hP,
          follows, ?_, waits⟩
        intro r eq
        obtain ⟨⟨r, type⟩, rfl, rfl⟩ := Option.map_eq_some_iff.mp eq
        exact ⟨type, arguments, line⟩
      · cases h
    · cases h

/-- A step of the machine. -/
theorem State.Follows.step (hM : M.Surveyed P) (h : st.Follows P)
    (step : st.step M overflow = some st') : st'.Follows P := by
  cases st with
  | ended => cases step
  | running a callers trace =>
    obtain ⟨f, s, Γ, hP, ⟨function, ⟨before, after, eq, rest, cells⟩, values⟩, waits⟩ := h
    have hK := hM.complete f s Γ hP
    have sound := hM.sound f s Γ hP
    unfold State.step at step
    dsimp only at step
    rw [rest] at step
    cases after with
    | nil => cases step
    | cons m after =>
      obtain ⟨scope, i⟩ := m
      have fits : (f.survey s Γ).Fits scope (Survey.first [] after) i := by
        rw [eq] at sound
        exact (Survey.sound_append.mp sound).2.1
      have line : i ∈ (f.function s).body := by
        have inside : i ∈ (f.marks s).map Prod.snd := by
          rw [eq]
          exact mem_map_of_mem (mem_append_right _ mem_cons_self)
        rw [f.map_marks] at inside
        exact inside
      have behind : f.marks s = (before ++ [(scope, i)]) ++ after := by
        rw [eq, append_assoc]
        rfl
      -- The activation behind the line, when nothing else has changed.
      have moved (sub : Survey.first [] after ⊆ scope) :
          Activation.Follows { a with rest := after.map Prod.snd } f s Γ :=
        ⟨function, ⟨_, after, behind, rfl, cells.mono sub⟩, values⟩
      have step : State.execute M overflow { a with rest := after.map Prod.snd } callers trace i
        = some st' := step
      cases i with
      | jump target =>
        obtain ⟨a', goto, step⟩ := Option.map_eq_some_iff.mp step
        cases step
        exact ⟨f, s, Γ, hP, .goto sound function values cells fits goto, waits⟩
      | branch condition onTrue onFalse =>
        simp only [State.execute] at step
        split at step
        · rename_i b given
          obtain ⟨a', goto, step⟩ := Option.map_eq_some_iff.mp step
          cases step
          refine ⟨f, s, Γ, hP, .goto sound function values cells (fun l mem => fits l ?_) goto,
            waits⟩
          cases b with
          | true => exact mem_append_left _ mem
          | false => exact mem_append_right _ mem
        · cases step
      | call result name arguments =>
        obtain ⟨data, given, step⟩ := Option.bind_eq_some_iff.mp step
        exact State.follows_call hM hP (moved fits.1) waits line fits.2 given step
      | ret value =>
        cases value with
        | none =>
          refine State.follows_leave hM hP waits (fun d eq => ?_) step
          cases eq
        | some value =>
          obtain ⟨type, operand⟩ := value
          obtain ⟨d, given, step⟩ := Option.bind_eq_some_iff.mp step
          refine State.follows_leave hM hP waits (fun d' eq => ?_) step
          cases eq
          exact values.bounded hK fits given
      | define | close | blank | label | callVariadic | verbatim => cases step
      | _ =>
        obtain ⟨a', exec, step⟩ := Option.map_eq_some_iff.mp step
        cases step
        obtain ⟨sameFunction, sameRest, values', cells'⟩ :=
          Survey.lands_exec (a := { a with rest := after.map Prod.snd }) hK line values
            cells fits exec
        exact ⟨f, s, Γ, hP, ⟨sameFunction.trans function, ⟨_, after, behind, sameRest, cells'⟩,
          values'⟩, waits⟩

theorem State.Follows.steps (hM : M.Surveyed P) (h : st.Follows P)
    (steps : st.Steps M overflow st') : st'.Follows P := by
  induction steps with
  | refl => exact h
  | head first _ ih => exact ih (h.step hM first)

end States

/-! ## Programs -/

/-- The functions of a program, with the names that are free before each and the types of its own
names. -/
def Program.Surveys (p : Program) (fs : List Routine) (registers : Nat) : Backpatch.Surveys :=
  fun f s Γ =>
  (f, s) ∈ Routine.placed fs { registers := registers } ∧
    ∃ g, (g, f) ∈ p.functions.zip fs ∧ Γ = g.types f (functionTypes (Routine.globals fs))

section Programs

variable {p : Program} {options : Options} {fs : List Routine} {registers : Nat} {b : CodeBuffer}
  {f : Routine} {s : NameSupply} {Γ : Types}

theorem Program.Compiled.complete (h : p.Compiled options fs registers b)
    (hf : p.Surveys fs registers f s Γ) : (f.survey s Γ).Complete := by
  obtain ⟨placed, g, paired, rfl⟩ := hf
  have results : (resultsOf (f.function s).body).Nodup := by
    rw [resultsOf, ← FunctionCode.results_eq]
    exact h.nodup_results (q := (f, s)) placed
  have given {r : Register} (mem : r ∈ resultsOf (f.function s).body) :
      r ∈ (f.function s).results := by
    rw [FunctionCode.results_eq]
    exact mem
  obtain ⟨globals, chain, -⟩ := Program.elaborate_chain h.elaborated
  obtain ⟨Q, inScope⟩ := chain.scoped f (Routine.mem_of_mem_placed placed)
  refine ⟨results, f.origins s, fun index mem => ?_, fun i mem result => ?_,
    fun index slot found => ?_, fun i j slot found found' => ?_,
    fun pointer type index found located => ?_⟩
  · rcases Routine.mem_results (given mem) with eq | ⟨n, eq⟩ <;> cases eq
  · -- Only the line that reserves the frame can give it.
    have inside := (f.results_function s).2.mem_iff.mp (given (mem_filterMap.mpr ⟨i, mem, result⟩))
    have positive : 0 < f.frameSize := by
      rcases mem_append.mp inside with array | other
      · unfold Routine.array at array
        split at array
        · assumption
        · cases array
      · obtain ⟨n, -, eq⟩ := mem_map.mp other
        cases eq
    have line : .allocaFrame f.frameSize ∈ (f.function s).body := by
      have frame : .allocaFrame f.frameSize ∈ f.frameLines := by
        unfold Routine.frameLines
        rw [if_pos positive]
        exact mem_singleton_self _
      show _ ∈ (f.code s).steps.map (Step.instr Step.noExits)
      rw [← f.map_marks s]
      unfold Routine.marks
      simp only [map_append, map_snd_mark]
      exact mem_append_left _ (mem_append_left _ (mem_append_left _ frame))
    exact ⟨_, eq_of_nodup_filterMap results mem line result rfl⟩
  · obtain ⟨n, rfl, located⟩ := Routine.exists_slot found
    show _ ∈ (f.code s).steps.map (Step.instr Step.noExits)
    rw [← f.map_marks s]
    unfold Routine.marks
    simp only [map_append, map_snd_mark]
    exact mem_append_left _ (mem_append_left _ (mem_append_right _
      (Routine.mem_spillLines.mpr ⟨index, n, located, .inl rfl⟩)))
  · obtain ⟨n, rfl, located⟩ := Routine.exists_slot found
    obtain ⟨m, eq, located'⟩ := Routine.exists_slot found'
    cases eq
    exact inScope.distinct i j n located located'
  · obtain ⟨n, eq, located⟩ := Routine.exists_slot located
    cases eq
    obtain ⟨before, _, behind, _, elaborated, -, -⟩ := Program.elaborate_mem h.elaborated _ paired
    have declared : pointer ∈ f.body.pointers := g.elaborate_locals elaborated found
    have spilled : pointer ∈ f.slots.filterMap id :=
      mem_filterMap.mpr ⟨_, mem_of_getElem? located, rfl⟩
    have distinct : f.pointers.Nodup :=
      (g.elaborate_pointers elaborated).2.nodup_iff.mpr nodup_range'
    exact (nodup_append.mp distinct).2.2 pointer spilled pointer declared rfl

/-- The finished code is that of the functions of the program. -/
theorem Program.Compiled.surveyed (h : p.Compiled options fs registers b) :
    b.image.Surveyed (p.Surveys fs registers) := by
  obtain ⟨globals, chain, -⟩ := Program.elaborate_chain h.elaborated
  refine ⟨fun f s Γ hf => h.complete hf, fun f s Γ hf => ?_, fun f s Γ hf => ?_,
    fun f s Γ g s' Γ' hf hg => ?_, fun name code other found => ?_⟩
  · obtain ⟨placed, g, paired, rfl⟩ := hf
    obtain ⟨Q, inScope⟩ := chain.scoped f (Routine.mem_of_mem_placed placed)
    exact Routine.sound_marks inScope (Program.elaborate_wellTyped h.elaborated _ paired)
  · obtain ⟨-, g, -, rfl⟩ := hf
    rfl
  · obtain ⟨-, source, -, rfl⟩ := hf
    refine functionTypes_eq_some.mpr ?_
    have entry : g.entry ∈ (fs.map Routine.entry).reverse :=
      mem_reverse.mpr (mem_map_of_mem (Routine.mem_of_mem_placed hg.1))
    have names : ((fs.map Routine.entry).reverse.map Prod.fst).Nodup := by
      rw [map_reverse, nodup_reverse, map_map]
      exact chain.nodup_names.1
    have found : (fs.map Routine.entry).reverse.lookup g.name
        = some (.function g.returnType g.parameters) :=
      lookup_of_mem names entry
    unfold Routine.globals
    rw [lookup_append, found]
    rfl
  · obtain ⟨f, s, placed, rfl, named⟩ := h.exists_of_function? other found
    obtain ⟨g, inside⟩ := Program.exists_source h.elaborated (Routine.mem_of_mem_placed placed)
    exact ⟨f, s, _, ⟨placed, g, inside, rfl⟩, rfl, named⟩

end Programs

/-! ## Runs -/

/-- The variables in scope where these lines of the function are left to execute. -/
def Routine.scopeAt (f : Routine) (s : NameSupply) (rest : List Instr) : Live :=
  Survey.first [] ((f.marks s).drop ((f.marks s).length - rest.length))

/-- The activations of a state, the topmost first. -/
def State.activations : State → List Activation
  | running top callers _ => top :: callers.map Caller.activation
  | ended _ _ => []

/-- What an activation of a function holds has the ranges of its types: the values of expressions in
their registers, variables in scope and parameters in their places, arguments, and a result that is
about to be returned. -/
structure Activation.InRange (a : Activation) (f : Routine) (s : NameSupply) (Γ : Types) :
    Prop where
  function : a.function = f.function s
  position : a.rest <:+ a.function.body
  expressions : ∀ t r type d, (t, r) ∈ f.places s → t.HasType Γ type → a.values r = some d →
    type.Holds d
  locals : ∀ pointer offset type, (pointer, offset) ∈ f.scopeAt s a.rest →
    Γ.locals pointer = some type → ∃ w, a.memory.read .frame offset = some w ∧ type.Holds (.word w)
  slots : ∀ (index : Nat) slot type w, f.frame.slots[index]? = some (some slot) →
    f.parameters[index]? = some type → a.memory.read slot 0 = some w → type.Holds (.word w)
  arguments : ∀ (index : Nat) type d, f.parameters[index]? = some type →
    a.values (.argument index) = some d → type.Holds d
  result : ∀ type operand rest d, a.rest = .ret (some (type, operand)) :: rest →
    a.value operand = some d → f.returnType.Holds d

theorem Activation.Follows.inRange {a : Activation} {f : Routine} {s : NameSupply} {Γ : Types}
    (h : a.Follows f s Γ) (hK : (f.survey s Γ).Complete)
    (sound : (f.survey s Γ).Sound (f.marks s) [])
    (parameters : Γ.parameters = f.parameters) : a.InRange f s Γ := by
  obtain ⟨before, after, eq, rest, cells⟩ := h.position
  have scope : f.scopeAt s a.rest = Survey.first [] after := by
    unfold Routine.scopeAt
    rw [rest, eq, length_map, length_append, Nat.add_sub_cancel, drop_left]
  refine ⟨h.function, ⟨before.map Prod.snd, ?_⟩, fun t r type d mem typed =>
    h.values.expression hK t mem typed, ?_, ?_, ?_, ?_⟩
  · rw [rest, ← map_append, ← eq, h.function]
    exact f.map_marks s
  · intro pointer offset type mem typed
    obtain ⟨w, read, holds⟩ := cells.locals _ (scope ▸ mem)
    exact ⟨w, read, holds type typed⟩
  · exact fun index slot type w found typed =>
      cells.parameters index slot type w found (parameters ▸ typed)
  · exact fun index type d typed => h.values.arguments index type d (parameters ▸ typed)
  · intro type operand behind d here given
    rw [rest] at here
    obtain ⟨m, after, rfl, line, -⟩ := map_eq_cons_iff.mp here
    rw [eq] at sound
    have fits := (Survey.sound_append.mp sound).2.1
    rw [line] at fits
    exact h.values.bounded hK fits given

theorem Caller.Wait.follows {P : Surveys} {f : Routine} {callers : List Caller}
    (h : Caller.Wait P f callers) :
    ∀ c ∈ callers, ∃ g s Γ, P g s Γ ∧ c.activation.Follows g s Γ := by
  induction callers generalizing f with
  | nil => exact forall_mem_nil _
  | cons c callers ih =>
    obtain ⟨g, s, Γ, hg, follows, -, waits⟩ := h
    exact forall_mem_cons.mpr ⟨⟨g, s, Γ, hg, follows⟩, ih waits⟩

theorem State.Follows.activations {P : Surveys} {st : State} (h : st.Follows P) :
    ∀ a ∈ st.activations, ∃ f s Γ, P f s Γ ∧ a.Follows f s Γ := by
  cases st with
  | ended => exact forall_mem_nil _
  | running top callers trace =>
    obtain ⟨f, s, Γ, hP, follows, waits⟩ := h
    exact forall_mem_cons.mpr ⟨⟨f, s, Γ, hP, follows⟩, forall_mem_map.mpr waits.follows⟩

/-- The run of the finished code begins in its entry point, without arguments. -/
theorem Program.Compiled.follows_start {p : Program} {options : Options} {fs : List Routine}
    {registers : Nat} {b : CodeBuffer} (h : p.Compiled options fs registers b) {st : State}
    (start : b.image.start = some st) :
    st.Follows (p.Surveys fs registers) := by
  obtain ⟨code, found, rfl⟩ := Option.map_eq_some_iff.mp start
  obtain ⟨f, s, Γ, hf, rfl, -⟩ := h.surveyed.found "main" code (by decide) found
  refine ⟨f, s, Γ, hf, FunctionCode.follows_start (h.complete hf) fun index type d _ given => ?_,
    trivial⟩
  cases given

/-- In every state of every run of the finished code, bytes and truth values are in their ranges.
Each activation is one of a function of the program; the registers of its expressions, its variables
in scope, its parameters and what it returns are of the types that they have in the source. -/
theorem Program.compile_ranges {p : Program} {options : Options} {text : String}
    (h : p.compile options = .ok text) :
    ∃ fs registers b, p.elaborate = .ok (fs, registers) ∧ p.emit options = .ok b ∧
      b.render = .ok text ∧ (∃ first, b.image.start = some first) ∧
      ∀ overflow state, b.image.Reaches overflow state → ∀ a ∈ state.activations,
        ∃ g f s, (g, f) ∈ p.functions.zip fs ∧
          (f, s) ∈ Routine.placed fs { registers := registers } ∧
          a.InRange f s (g.types f (functionTypes (Routine.globals fs))) := by
  obtain ⟨fs, registers, b, compiled, rendered⟩ := compiled_of_compile h
  obtain ⟨_, _, _, _, _, _, entry⟩ := compiled.exists_main
  refine ⟨fs, registers, b, compiled.elaborated, compiled.emitted, rendered, ⟨_, entry⟩, ?_⟩
  rintro overflow state ⟨first, start, steps⟩ a mem
  have surveyed := compiled.surveyed
  obtain ⟨f, s, Γ, hf, follows⟩ :=
    ((compiled.follows_start start).steps surveyed steps).activations a mem
  have inRange := follows.inRange (surveyed.complete f s Γ hf) (surveyed.sound f s Γ hf)
    (surveyed.parameters f s Γ hf)
  obtain ⟨placed, g, paired, rfl⟩ := hf
  exact ⟨g, f, s, paired, placed, inRange⟩

theorem Program.countdown_ranges :
    ∃ text fs registers b, countdown.compile {} = .ok text ∧
      countdown.elaborate = .ok (fs, registers) ∧
      countdown.emit {} = .ok b ∧ (∃ first, b.image.start = some first) ∧
      ∀ overflow state, b.image.Reaches overflow state → ∀ a ∈ state.activations,
        ∃ g f s, (g, f) ∈ countdown.functions.zip fs ∧
          (f, s) ∈ Routine.placed fs { registers := registers } ∧
          a.InRange f s (g.types f (functionTypes (Routine.globals fs))) := by
  obtain ⟨text, compiled⟩ := countdown_compiles
  obtain ⟨fs, registers, b, elaborated, emitted, -, start, ranges⟩ :=
    Program.compile_ranges compiled
  exact ⟨text, fs, registers, b, compiled, elaborated, emitted, start, ranges⟩

end Backpatch
