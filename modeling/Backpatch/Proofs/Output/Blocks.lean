import Backpatch.Proofs.Output.Functions

/-!
# Basic blocks of the output

In every function of a compiled program the lines make up blocks: a line that ends one, by its text
a branch or a return, stands before each label and nowhere else but at the end of the function
(`Program.compile_blocks`). What the code of core terms keeps to is said of their kinds of lines
(`Backpatch.Proofs.Core.Reading`); here it is read off the lines of the buffer and their texts.
-/

namespace Backpatch

open List

/-! ## Texts of lines -/

/-- The text begins with the other one. -/
def Begins (lead text : String) : Prop := lead.toList <+: text.toList

instance (lead text : String) : Decidable (Begins lead text) :=
  inferInstanceAs (Decidable (_ <+: _))

theorem Begins.append {lead text : String} (h : Begins lead text) (rest : String) :
    Begins lead (text ++ rest) := by
  unfold Begins
  rw [String.toList_append]
  exact h.trans (prefix_append _ _)

theorem Register.begins_text {r : Register} (h : r.isLocal = true) : Begins "%" r.text := by
  cases r with
  | named text =>
    obtain ⟨rest, eq⟩ := head?_eq_some_iff.mp (eq_of_beq h)
    exact ⟨rest, eq.symm⟩
  | temp index =>
    have lead : Begins "%" "%t" := by decide
    exact lead.append _
  | argument index =>
    have lead : Begins "%" "%" := by decide
    exact lead.append _
  | frame =>
    show Begins "%" "%frame"
    decide

namespace Instr

/-- The line ends a block: its text begins with `br ` or with `ret`. -/
def EndsBlock (i : Instr) : Prop := Begins "br " i.text ∨ Begins "ret" i.text

variable {i : Instr}

theorem endsBlock_of_isTerminator (h : i.isTerminator = true) : i.EndsBlock := by
  cases i with
  | jump target =>
    have lead : Begins "br " "br label " := by decide
    exact .inl (lead.append _)
  | branch condition onTrue onFalse =>
    have lead : Begins "br " "br i1 " := by decide
    exact .inl (((((lead.append _).append _).append _).append _).append _)
  | ret value =>
    cases value with
    | none =>
      have whole : Begins "ret" "ret void" := by decide
      exact .inr whole
    | some value =>
      have lead : Begins "ret" "ret " := by decide
      exact .inr (((lead.append _).append _).append _)
  | _ => cases h

theorem not_endsBlock {lead : String} (h : Begins lead i.text)
    (other : ∃ c rest, lead.toList = c :: rest ∧ c ≠ 'b' ∧ c ≠ 'r') : ¬i.EndsBlock := by
  obtain ⟨c, rest, first, hb, hr⟩ := other
  obtain ⟨others, eq⟩ := h
  rw [first] at eq
  unfold EndsBlock Begins
  rw [← eq]
  rintro (begins | begins)
  · exact hb (cons_prefix_cons.mp begins).1.symm
  · exact hr (cons_prefix_cons.mp begins).1.symm

/-- A line that gives a register a value begins with it. -/
theorem begins_text_of_result? {r : Register} (h : i.result? = some r) (lead : Begins "%" r.text) :
    Begins "%" i.text := by
  cases i with
  | allocaSlot =>
    cases h
    exact lead.append _
  | load | stringAddress | slotAddress =>
    cases h
    exact (lead.append _).append _
  | allocaFrame =>
    cases h
    exact ((lead.append _).append _).append _
  | compute | compare =>
    cases h
    exact (((((lead.append _).append _).append _).append _).append _).append _
  | call result callee arguments =>
    cases result with
    | none => cases h
    | some result =>
      cases h
      exact ((((((lead.append _).append _).append _).append _).append _).append _).append _
  | phi =>
    cases h
    iterate 11 refine Begins.append ?_ _
    exact lead
  | _ => cases h

theorem not_endsBlock_of_isInner (h : i.isInner = true) : ¬i.EndsBlock := by
  have defines : ∀ {r : Register}, i.result? = some r → r.isLocal = true → ¬i.EndsBlock :=
    fun result isLocal =>
      not_endsBlock (begins_text_of_result? result (Register.begins_text isLocal))
      ⟨'%', [], rfl, by decide, by decide⟩
  cases i with
  | store value pointer =>
    have lead : Begins "store i32 " "store i32 " := by decide
    exact not_endsBlock (((lead.append _).append _).append _) ⟨'s', _, rfl, by decide, by decide⟩
  | call result callee arguments =>
    cases result with
    | none =>
      have lead : Begins "call void @" "call void @" := by decide
      exact not_endsBlock ((((lead.append _).append _).append _).append _)
        ⟨'c', _, rfl, by decide, by decide⟩
    | some result => exact defines rfl h
  | callVariadic type fixed callee arguments =>
    have lead : Begins "call " "call " := by decide
    have line : Begins "call " (callVariadic type fixed callee arguments).text := by
      iterate 8 refine Begins.append ?_ _
      exact lead
    exact not_endsBlock line ⟨'c', _, rfl, by decide, by decide⟩
  | define | close | blank | label | jump | branch | ret | verbatim => cases h
  | _ => exact defines rfl h

theorem not_endsBlock_label (n : Nat) : ¬(label (.numbered n)).EndsBlock := by
  have lead : Begins "L" "L" := by decide
  exact not_endsBlock ((lead.append _).append _) ⟨'L', _, rfl, by decide, by decide⟩

theorem not_endsBlock_define (result : IrType) (name : String) (parameters : List IrType) :
    ¬(define result name parameters).EndsBlock := by
  have lead : Begins "define " "define " := by decide
  have line : Begins "define " (define result name parameters).text := by
    iterate 6 refine Begins.append ?_ _
    exact lead
  exact not_endsBlock line ⟨'d', _, rfl, by decide, by decide⟩

theorem not_endsBlock_close : ¬close.EndsBlock := by
  unfold EndsBlock
  decide

end Instr

/-! ## Blocks of a list of lines -/

/-- The lines cut in front of each label. -/
def blocks : List Instr → List (List Instr)
  | [] => []
  | i :: rest =>
    match blocks rest with
    | [] => [[i]]
    | block :: others =>
      if block.head?.any Instr.isLabel then [i] :: block :: others else (i :: block) :: others

/-- Exactly the last line of the block ends it. -/
def BlockEnds (block : List Instr) : Prop :=
  ∃ before last, block = before ++ [last] ∧ last.EndsBlock ∧ ∀ i ∈ before, ¬i.EndsBlock

theorem blockEnds_singleton {i : Instr} (h : i.EndsBlock) : BlockEnds [i] :=
  ⟨[], i, rfl, h, forall_mem_nil _⟩

theorem BlockEnds.cons {i : Instr} {block : List Instr} (hi : ¬i.EndsBlock) (h : BlockEnds block) :
    BlockEnds (i :: block) := by
  obtain ⟨before, last, rfl, ends, others⟩ := h
  exact ⟨i :: before, last, rfl, ends, forall_mem_cons.mpr ⟨hi, others⟩⟩

theorem flatten_blocks (lines : List Instr) : (blocks lines).flatten = lines := by
  induction lines with
  | nil => rfl
  | cons i rest ih =>
    unfold blocks
    split
    · rename_i eq
      rw [eq] at ih
      exact congrArg (i :: ·) ih
    · rename_i block others eq
      rw [eq] at ih
      split <;> exact congrArg (i :: ·) ih

namespace Position

variable {p q : Position} {lines : List Instr}

/-- A walk that is behind the end of a block has just passed its last line. -/
theorem exists_last_of_walk (h : inside.walk lines = some between) :
    ∃ before last, lines = before ++ [last] ∧ last.isTerminator = true := by
  rcases eq_nil_or_concat lines with rfl | ⟨before, last, rfl⟩
  · cases h
  · rw [concat_eq_append, walk_append] at h
    obtain ⟨r, -, h⟩ := Option.bind_eq_some_iff.mp h
    rw [walk_cons] at h
    obtain ⟨q, passed, h⟩ := Option.bind_eq_some_iff.mp h
    cases h
    rcases next_eq_some passed with ⟨-, terminator, -⟩ | ⟨-, -, eq⟩ | ⟨-, -, eq⟩
    · exact ⟨before, last, concat_eq_append, terminator⟩
    · cases eq
    · cases eq

theorem exists_next_of_walk {before after : List Instr} {i : Instr}
    (h : p.walk (before ++ i :: after) = some q) :
    ∃ r r', p.walk before = some r ∧ r.next i = some r' ∧ r'.walk after = some q := by
  rw [walk_append] at h
  obtain ⟨r, passed, h⟩ := Option.bind_eq_some_iff.mp h
  rw [walk_cons] at h
  obtain ⟨r', here, h⟩ := Option.bind_eq_some_iff.mp h
  exact ⟨r, r', passed, here, h⟩

theorem next_label_eq_some {l : Label} (h : p.next (.label l) = some q) : p = between := by
  rcases next_eq_some h with ⟨-, terminator, -⟩ | ⟨-, inner, -⟩ | ⟨eq, -, -⟩
  · cases terminator
  · cases inner
  · exact eq

/-- By its text a line ends a block exactly if the walk is between blocks behind it. -/
theorem endsBlock_iff {i : Instr} (h : p.next i = some q) : i.EndsBlock ↔ q = between := by
  rcases next_eq_some h with ⟨-, terminator, rfl⟩ | ⟨-, inner, rfl⟩ | ⟨-, ⟨n, rfl⟩, rfl⟩
  · exact ⟨fun _ => rfl, fun _ => Instr.endsBlock_of_isTerminator terminator⟩
  · exact ⟨fun ends => absurd ends (Instr.not_endsBlock_of_isInner inner), fun eq => by cases eq⟩
  · exact ⟨fun ends => absurd ends (Instr.not_endsBlock_label n), fun eq => by cases eq⟩

/-- Cut in front of the labels, the lines of a walk are blocks with one end each. -/
theorem blockEnds_of_walk (h : p.walk lines = some between) :
    ∀ block ∈ blocks lines, BlockEnds block := by
  induction lines generalizing p with
  | nil => exact forall_mem_nil _
  | cons i rest ih =>
    rw [walk_cons] at h
    obtain ⟨q, here, h⟩ := Option.bind_eq_some_iff.mp h
    have ended := ih h
    have whole := flatten_blocks rest
    unfold blocks
    split
    · rename_i eq
      rw [eq] at whole
      obtain rfl : rest = [] := whole.symm
      cases h
      exact forall_mem_singleton.mpr (blockEnds_singleton ((endsBlock_iff here).mpr rfl))
    · rename_i block more eq
      rw [eq, flatten_cons] at whole
      rw [eq] at ended
      obtain ⟨first, others⟩ := forall_mem_cons.mp ended
      -- The next line is the first one of the next block, and tells where the walk is before it.
      obtain ⟨j, tail, rfl⟩ : ∃ j tail, block = j :: tail := by
        obtain ⟨before, last, rfl, -⟩ := first
        cases before with
        | nil => exact ⟨last, [], rfl⟩
        | cons j before => exact ⟨j, before ++ [last], rfl⟩
      rw [← whole, cons_append, walk_cons] at h
      obtain ⟨r, passed, -⟩ := Option.bind_eq_some_iff.mp h
      split
      · rename_i isLabel
        have between : q = between := by
          cases j with
          | label l => exact next_label_eq_some passed
          | _ => cases isLabel
        have ends := blockEnds_singleton ((endsBlock_iff here).mpr between)
        exact forall_mem_cons.mpr ⟨ends, forall_mem_cons.mpr ⟨first, others⟩⟩
      · rename_i notLabel
        have goesOn : ¬i.EndsBlock := by
          intro ends
          rw [(endsBlock_iff here).mp ends] at passed
          rcases next_eq_some passed with ⟨eq, -⟩ | ⟨eq, -⟩ | ⟨-, ⟨n, rfl⟩, -⟩
          · cases eq
          · cases eq
          · exact notLabel rfl
        exact forall_mem_cons.mpr ⟨first.cons goesOn, others⟩

end Position

/-! ## Blocks of functions -/

namespace FunctionCode

/-- The lines of the function make up blocks. -/
structure InBlocks (f : FunctionCode) : Prop where
  beforeLabel : ∀ n l, f.lines[n + 1]? = some (.label l) → ∃ i, f.lines[n]? = some i ∧ i.EndsBlock
  afterEnd : ∀ n i, f.lines[n]? = some i → i.EndsBlock →
    f.lines[n + 1]? = some .close ∨ ∃ l, f.lines[n + 1]? = some (.label l)
  last : ∃ before value, f.lines = before ++ [Instr.ret value, Instr.close]
  blocks : ∀ block ∈ blocks f.body, BlockEnds block

variable {f : FunctionCode}

theorem getElem?_lines (f : FunctionCode) (n : Nat) :
    f.lines[n + 1]? = (f.body ++ [Instr.close])[n]? := getElem?_cons_succ

/-- A line behind the head is one of the body, or the end. -/
theorem eq_append_of_getElem? {n : Nat} {i : Instr} (h : f.lines[n + 1]? = some i) :
    n = f.body.length ∧ i = .close ∨
      ∃ before after, f.body = before ++ i :: after ∧ n = before.length := by
  rw [getElem?_lines, List.getElem?_append] at h
  split at h
  · rename_i inside
    refine .inr ⟨f.body.take n, f.body.drop (n + 1), ?_, ?_⟩
    · obtain ⟨bound, eq⟩ := List.getElem?_eq_some_iff.mp h
      rw [← eq, getElem_cons_drop, take_append_drop]
    · rw [length_take]
      omega
  · rename_i outside
    rw [getElem?_singleton] at h
    split at h
    · exact .inl ⟨by omega, (Option.some.inj h).symm⟩
    · cases h

theorem getElem?_append_lines {before after : List Instr} (h : f.body = before ++ after) :
    f.lines[before.length + 1]? = (after ++ [Instr.close]).head? := by
  rw [getElem?_lines, h, append_assoc, getElem?_append_right (Nat.le_refl _), Nat.sub_self,
    head?_eq_getElem?]

/-- A body that a walk leads through, up to a return, makes a function of blocks. -/
theorem inBlocks_of_walk (walked : Position.inside.walk f.body = some .between)
    (last : ∃ before value, f.body = before ++ [Instr.ret value]) : f.InBlocks where
  beforeLabel n l found := by
    rcases eq_append_of_getElem? found with ⟨-, eq⟩ | ⟨before, after, body, rfl⟩
    · cases eq
    · rw [body] at walked
      obtain ⟨r, r', passed, here, -⟩ := Position.exists_next_of_walk walked
      -- A walk comes to a label only between blocks, so the line before has ended one.
      rw [Position.next_label_eq_some here] at passed
      obtain ⟨others, i, rfl, terminator⟩ := Position.exists_last_of_walk passed
      refine ⟨i, ?_, Instr.endsBlock_of_isTerminator terminator⟩
      rw [append_assoc] at body
      rw [length_append, length_singleton, getElem?_append_lines body]
      rfl
  afterEnd n i found ends := by
    cases n with
    | zero =>
      obtain rfl : f.head = i := Option.some.inj found
      exact absurd ends (Instr.not_endsBlock_define _ _ _)
    | succ n =>
      rcases eq_append_of_getElem? found with ⟨-, rfl⟩ | ⟨before, after, body, rfl⟩
      · exact absurd ends Instr.not_endsBlock_close
      · rw [body] at walked
        obtain ⟨r, r', -, here, rest⟩ := Position.exists_next_of_walk walked
        obtain rfl := (Position.endsBlock_iff here).mp ends
        have split : f.body = (before ++ [i]) ++ after := by
          rw [body, append_assoc]
          rfl
        have next := getElem?_append_lines split
        rw [length_append, length_singleton] at next
        rw [next]
        cases after with
        | nil => exact .inl rfl
        | cons j after =>
          rw [Position.walk_cons] at rest
          obtain ⟨q, passed, -⟩ := Option.bind_eq_some_iff.mp rest
          rcases Position.next_eq_some passed with ⟨eq, -⟩ | ⟨eq, -⟩ | ⟨-, ⟨k, rfl⟩, -⟩
          · cases eq
          · cases eq
          · exact .inr ⟨_, rfl⟩
  last := by
    obtain ⟨before, value, body⟩ := last
    refine ⟨f.head :: before, value, ?_⟩
    unfold FunctionCode.lines
    rw [body, cons_append, cons_append, append_assoc]
    rfl
  blocks := Position.blockEnds_of_walk walked

end FunctionCode

theorem runtimeCode_inBlocks (emitRuntime : Bool) : ∀ f ∈ runtimeCode emitRuntime, f.InBlocks := by
  intro f mem
  refine FunctionCode.inBlocks_of_walk (walk_runtimeCode emitRuntime f mem) ?_
  cases emitRuntime with
  | false => cases mem
  | true =>
    have last : ∀ f ∈ runtimeCode true, f.body = f.body.dropLast ++ [Instr.ret none] := by decide
    exact ⟨_, _, last f mem⟩

theorem Routine.inBlocks (f : Routine) (s : NameSupply) : (f.function s).InBlocks := by
  refine FunctionCode.inBlocks_of_walk (Reading.walk_of_read (f.read_code s)) ?_
  unfold Routine.function Routine.code Routine.endLines
  simp only [map_append, map_cons, map_nil, ← append_assoc, ← cons_append]
  exact ⟨_, _, rfl⟩

/-- The text of a compiled program is that of a row of functions, those of the runtime and those of
the source, and the lines of each make up blocks: before every label, and nowhere else but at the
end, stands a line that ends a block. -/
theorem Program.compile_blocks {p : Program} {options : Options} {text : String}
    (h : p.compile options = .ok text) :
    ∃ b, p.emit options = .ok b ∧ b.render = .ok text ∧
      b.instrs = b.functions.flatMap FunctionCode.written ∧
      b.functions.map FunctionCode.name = (runtimeCode options.emitRuntime).map FunctionCode.name ++
          p.functions.map FunctionDef.name ∧ ∀ f ∈ b.functions, f.InBlocks := by
  obtain ⟨fs, registers, b, compiled, rendered⟩ := compiled_of_compile h
  refine ⟨b, compiled.emitted, rendered, compiled.instrs_functions, compiled.names_functions, ?_⟩
  rw [compiled.functions_eq]
  refine forall_mem_append.mpr ⟨runtimeCode_inBlocks _, forall_mem_map.mpr ?_⟩
  exact fun q _ => q.1.inBlocks q.2

theorem Program.countdown_blocks : ∃ text b, countdown.compile {} = .ok text ∧
      countdown.emit {} = .ok b ∧
      b.functions.map FunctionCode.name = ["printi", "print", "error_zero_div", "half", "main"] ∧
      ∀ f ∈ b.functions, f.InBlocks := by
  obtain ⟨text, compiled⟩ := countdown_compiles
  obtain ⟨b, emitted, -, -, names, blocks⟩ := Program.compile_blocks compiled
  exact ⟨text, b, compiled, emitted, names, blocks⟩

end Backpatch
