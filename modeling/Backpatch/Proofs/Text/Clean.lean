import Backpatch.Code.Buffer
import Backpatch.Proofs.Text.Constant

/-!
# Text without the placeholder

The placeholder is reserved for holes, so a line may be written only if its text is free of it. All
parts of a generated line are: names that are numbered, numbers, opcodes, and string constants,
whose bodies are printable ASCII. What remains are the names that come from the program. A line is
*plain* if its registers and labels are generated and the names in it are clean, and a plain line
has no placeholder.
-/

namespace Backpatch

/-- The placeholder does not stand in the text. -/
def Clean (text : String) : Prop := placeholder ∉ text.toList

instance (text : String) : Decidable (Clean text) :=
  inferInstanceAs (Decidable (placeholder ∉ text.toList))

variable {a b : String} {texts : List String} {i : Instr}

theorem clean_append : Clean (a ++ b) ↔ Clean a ∧ Clean b := by
  unfold Clean
  rw [String.toList_append, List.mem_append, not_or]

theorem Clean.append (ha : Clean a) (hb : Clean b) : Clean (a ++ b) :=
  clean_append.mpr ⟨ha, hb⟩

theorem Clean.count (h : Clean a) : a.toList.count placeholder = 0 :=
  List.count_eq_zero.mpr h

theorem clean_ofList {cs : List Char} : Clean (String.ofList cs) ↔ placeholder ∉ cs := by
  unfold Clean
  rw [String.toList_ofList]

/-! ## Numbers -/

theorem placeholder_not_digit : placeholder.isDigit = false := by decide

theorem clean_nat (n : Nat) : Clean (toString n) := by
  intro h
  have h' : placeholder ∈ Nat.toDigits 10 n := by
    rw [← Nat.toList_repr]
    exact h
  have := Nat.isDigit_of_mem_toDigits (by decide) (by decide) h'
  rw [placeholder_not_digit] at this
  exact absurd this (by decide)

theorem clean_int (n : Int) : Clean (toString n) := by
  cases n with
  | ofNat n => exact clean_nat n
  | negSucc n =>
    have h : Clean ("-" ++ toString (n + 1)) := (by decide : Clean "-").append (clean_nat (n + 1))
    exact h

/-! ## Lists -/

theorem clean_join (h : ∀ t ∈ texts, Clean t) : Clean (String.join texts) := by
  induction texts with
  | nil => decide
  | cons t ts ih =>
    rw [String.join_cons]
    exact (h t (by simp)).append (ih fun u hu => h u (by simp [hu]))

theorem clean_commaList (h : ∀ t ∈ texts, Clean t) : Clean (commaList texts) := by
  unfold commaList
  induction texts with
  | nil => decide
  | cons t ts ih =>
    cases ts with
    | nil => simpa using h t (by simp)
    | cons u us =>
      rw [String.intercalate_cons_cons]
      exact ((h t (by simp)).append (by decide)).append (ih fun v hv => h v (by simp [hv]))

/-! ## String constants -/

theorem clean_constantBody (text : String) : Clean (Text.constantBody text) := fun mem =>
  absurd ((Text.isBody_constantBody text).printable _ mem).2.1 (by decide)

/-! ## Names -/

/-- A register that the compiler has made up itself. -/
def Register.Generated : Register → Prop
  | .named _ => False
  | _ => True

def Operand.Generated : Operand → Prop
  | .register r => r.Generated
  | .number _ => True

def Label.Generated : Label → Prop
  | .numbered _ => True
  | .named _ => False

/-- A target that is known and generated. -/
def Target.Generated : Target → Prop
  | some l => l.Generated
  | none => False

def GlobalName.Generated : GlobalName → Prop
  | .string _ => True
  | .named _ => False

theorem Register.Generated.clean {r : Register} (h : r.Generated) : Clean r.text := by
  cases r with
  | temp index => exact (by decide : Clean "%t").append (clean_nat index)
  | argument index => exact (by decide : Clean "%").append (clean_nat index)
  | frame => decide
  | named text => exact h.elim

theorem Operand.Generated.clean {o : Operand} (h : o.Generated) : Clean o.text := by
  cases o with
  | register r => exact Register.Generated.clean h
  | number n => exact clean_int n

theorem Label.Generated.clean {l : Label} (h : l.Generated) : Clean l.text := by
  cases l with
  | numbered index => exact (by decide : Clean "L").append (clean_nat index)
  | named text => exact h.elim

theorem Target.Generated.clean {t : Target} (h : t.Generated) : Clean t.text := by
  cases t with
  | some l => exact (by decide : Clean "%").append (Label.Generated.clean h)
  | none => exact h.elim

theorem GlobalName.Generated.clean {g : GlobalName} (h : g.Generated) : Clean g.text := by
  cases g with
  | string index => exact (by decide : Clean "@.str").append (clean_nat index)
  | named text => exact h.elim

theorem IrType.clean (t : IrType) : Clean t.text := by
  cases t <;> decide

theorem Opcode.clean (o : Opcode) : Clean o.text := by
  cases o <;> decide

theorem Predicate.clean (p : Predicate) : Clean p.text := by
  cases p <;> decide

theorem clean_argumentList {arguments : List (IrType × Operand)}
    (h : ∀ a ∈ arguments, a.2.Generated) : Clean (argumentList arguments) := by
  apply clean_commaList
  intro t ht
  obtain ⟨⟨type, value⟩, mem, rfl⟩ := List.mem_map.mp ht
  exact (type.clean.append (by decide)).append (h _ mem).clean

theorem clean_elementAddress {array base index : String} (ha : Clean array) (hb : Clean base)
    (hi : Clean index) : Clean (elementAddress array base index) := by
  have start : Clean "getelementptr " := by decide
  have comma : Clean ", " := by decide
  have star : Clean "* " := by decide
  have zero : Clean ", i32 0, i32 " := by decide
  exact ((((((start.append ha).append comma).append ha).append star).append hb).append
    zero).append hi

/-! ## Lines -/

/-- The registers, labels and constants of the line are generated, its holes are filled, and the
names in it are clean. -/
def Instr.Plain : Instr → Prop
  | .define _ name _ => Clean name
  | .close | .blank | .allocaFrame _ => True
  | .label l => l.Generated
  | .allocaSlot slot => slot.Generated
  | .store value pointer => value.Generated ∧ pointer.Generated
  | .load result pointer => result.Generated ∧ pointer.Generated
  | .compute result _ left right | .compare result _ left right =>
    result.Generated ∧ left.Generated ∧ right.Generated
  | .jump target => target.Generated
  | .branch condition onTrue onFalse =>
    condition.Generated ∧ onTrue.Generated ∧ onFalse.Generated
  | .phi result _ first firstFrom second secondFrom =>
    result.Generated ∧ first.Generated ∧ firstFrom.Generated ∧ second.Generated ∧
      secondFrom.Generated
  | .call result callee arguments =>
    (∀ r ∈ result, r.1.Generated) ∧ Clean callee ∧ ∀ a ∈ arguments, a.2.Generated
  | .ret value => ∀ v ∈ value, v.2.Generated
  | .stringAddress result _ constant => result.Generated ∧ constant.Generated
  | .slotAddress result _ _ => result.Generated
  | .callVariadic .. | .verbatim .. => False

theorem Instr.Plain.clean (h : i.Plain) : Clean i.text := by
  have comma : Clean ", " := by decide
  have close : Clean ")" := by decide
  cases i with
  | define result name parameters =>
    have types : ∀ t ∈ parameters.map IrType.text, Clean t := by
      intro t ht
      obtain ⟨type, _, rfl⟩ := List.mem_map.mp ht
      exact type.clean
    exact ((((((by decide : Clean "define ").append result.clean).append (by decide)).append
      h).append (by decide)).append (clean_commaList types)).append (by decide)
  | close | blank => decide
  | label l => exact (Label.Generated.clean h).append (by decide)
  | allocaFrame size =>
    exact (((by decide : Clean (Register.frame.text ++ " = alloca [")).append
      (clean_int size))).append (by decide)
  | allocaSlot slot => exact (Register.Generated.clean h).append (by decide)
  | store value pointer =>
    exact (((by decide : Clean "store i32 ").append h.1.clean).append (by decide)).append h.2.clean
  | load result pointer => exact (h.1.clean.append (by decide)).append h.2.clean
  | compute result opcode left right =>
    exact (((((h.1.clean.append (by decide)).append opcode.clean).append (by decide)).append
      h.2.1.clean).append comma).append h.2.2.clean
  | compare result predicate left right =>
    exact (((((h.1.clean.append (by decide)).append predicate.clean).append (by decide)).append
      h.2.1.clean).append comma).append h.2.2.clean
  | jump target => exact (by decide : Clean "br label ").append (Target.Generated.clean h)
  | branch condition onTrue onFalse =>
    exact (((((by decide : Clean "br i1 ").append h.1.clean).append (by decide)).append
      h.2.1.clean).append (by decide)).append h.2.2.clean
  | phi result type first firstFrom second secondFrom =>
    obtain ⟨hr, hf, hff, hs, hsf⟩ := h
    have open1 : Clean " [" := by decide
    have from1 : Clean ", %" := by decide
    have next : Clean "], [" := by decide
    have last : Clean "]" := by decide
    exact (((((((((hr.clean.append (by decide)).append type.clean).append open1).append
      hf.clean).append from1).append hff.clean).append next).append hs.clean).append
      from1).append hsf.clean |>.append last
  | call result callee arguments =>
    obtain ⟨hr, hc, ha⟩ := h
    cases result with
    | none =>
      exact ((((by decide : Clean "call void @").append hc).append (by decide)).append
        (clean_argumentList ha)).append close
    | some r =>
      obtain ⟨register, type⟩ := r
      have hr : register.Generated := hr _ rfl
      exact ((((((hr.clean.append (by decide)).append type.clean).append (by decide)).append
        hc).append (by decide)).append (clean_argumentList ha)).append close
  | callVariadic type fixed callee arguments | verbatim text rest => exact h.elim
  | ret value =>
    cases value with
    | none => decide
    | some v =>
      obtain ⟨type, value⟩ := v
      have hv : value.Generated := h _ rfl
      exact (((by decide : Clean "ret ").append type.clean).append (by decide)).append hv.clean
  | stringAddress result length constant =>
    refine (h.1.clean.append (by decide)).append (clean_elementAddress ?_ h.2.clean (by decide))
    exact ((by decide : Clean "[").append (clean_nat length)).append (by decide)
  | slotAddress result size offset =>
    refine (Register.Generated.clean h |>.append (by decide)).append
      (clean_elementAddress ?_ (by decide) (clean_int offset))
    exact ((by decide : Clean "[").append (clean_int size)).append (by decide)

theorem Instr.Plain.placeholders_eq_zero (h : i.Plain) : i.placeholders = 0 :=
  h.clean.count

theorem placeholders_open_branch {condition : Register} (h : condition.Generated) :
    (Instr.branch condition none none).placeholders = 2 := by
  have text : (Instr.branch condition none none).text
      = "br i1 " ++ condition.text ++ ", label " ++ placeholder.toString ++ ", label "
        ++ placeholder.toString := rfl
  unfold Instr.placeholders
  rw [text]
  simp only [String.toList_append, List.count_append, h.clean.count]
  decide

end Backpatch
