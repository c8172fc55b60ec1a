import Std.Data.String.ToNat
import Backpatch.Proofs.Elaboration.Registers
import Backpatch.Proofs.Output.Blocks

/-!
# Single assignment and resolution of labels

Over all functions of a compiled program each numbered register that occurs is given its value by
exactly one line, and each numbered label stands exactly once. A function that uses its frame
reserves it, once, and every label that one of its branches or choices names is one of its own
(`Program.compile_names`). Names are compared as they are written, so no two of them can be confused
in the text.
-/

namespace Backpatch

open List

/-! ## Names as they are written -/

variable {m n : Nat}

theorem toList_toString_ne (n : Nat) {c : Char} {rest : List Char} (letter : c.isDigit = false) :
    (toString n).toList ≠ c :: rest := by
  intro eq
  have mem : c ∈ Nat.toDigits 10 n := by
    rw [← Nat.toList_repr]
    show c ∈ (toString n).toList
    rw [eq]
    exact mem_cons_self
  have digit := Nat.isDigit_of_mem_toDigits (by decide) (by decide) mem
  rw [letter] at digit
  cases digit

namespace Register

/-- The register is not taken for a numbered one or for the frame. -/
def Distinct : Register → Prop
  | named text => ¬Begins "%t" text ∧ text ≠ "%frame"
  | _ => True

variable {r : Register} {n : Nat}

theorem eq_of_text_temp {m : Nat} (h : (temp m).text = (temp n).text) : m = n :=
  Nat.repr_injective (String.append_right_inj "%t" |>.mp h)

theorem toList_text_argument (n : Nat) : (argument n).text.toList = '%' :: (toString n).toList := by
  simp [text]

theorem Distinct.eq_temp (h : r.Distinct) (begins : Begins "%t" r.text) : ∃ n, r = temp n := by
  cases r with
  | temp n => exact ⟨n, rfl⟩
  | argument n =>
    obtain ⟨rest, eq⟩ := begins
    rw [toList_text_argument] at eq
    exact absurd (List.cons.inj eq).2.symm (toList_toString_ne n rfl)
  | frame => exact absurd begins (by decide)
  | named text => exact absurd begins h.1

theorem begins_temp (n : Nat) : Begins "%t" (temp n).text := by
  have lead : Begins "%t" "%t" := by decide
  exact lead.append _

theorem Distinct.text_eq_temp (h : r.Distinct) : r.text = (temp n).text ↔ r = temp n := by
  refine ⟨fun eq => ?_, fun eq => eq ▸ rfl⟩
  have begins : Begins "%t" r.text := eq ▸ begins_temp n
  obtain ⟨m, rfl⟩ := h.eq_temp begins
  rw [eq_of_text_temp eq]

theorem Distinct.text_eq_frame (h : r.Distinct) : r.text = frame.text ↔ r = frame := by
  refine ⟨fun eq => ?_, fun eq => eq ▸ rfl⟩
  cases r with
  | temp n =>
    have begins := begins_temp n
    rw [eq] at begins
    exact absurd begins (by decide)
  | argument n =>
    have written := congrArg String.toList eq
    rw [toList_text_argument] at written
    exact absurd (List.cons.inj written).2 (toList_toString_ne n rfl)
  | frame => rfl
  | named text => exact absurd eq h.2

end Register

theorem Label.text_eq_numbered : (Label.numbered m).text = (Label.numbered n).text ↔ m = n :=
  ⟨fun eq => Nat.repr_injective (String.append_right_inj "L" |>.mp eq), fun eq => eq ▸ rfl⟩

/-- How often a name is written, when no other name is written like it. -/
theorem count_map_of_iff {α β : Type} [DecidableEq α] [DecidableEq β] {f : α → β} {a : α}
    {xs : List α} (h : ∀ x ∈ xs, f x = f a ↔ x = a) : (xs.map f).count (f a) = xs.count a := by
  induction xs with
  | nil => rfl
  | cons x xs ih =>
    obtain ⟨here, rest⟩ := forall_mem_cons.mp h
    rw [map_cons, count_cons, count_cons, ih rest]
    simp only [beq_iff_eq, here]

/-! ## What functions give -/

namespace FunctionCode

/-- The registers that get a value in the function. -/
def results (f : FunctionCode) : List Register := f.lines.filterMap Instr.result?

/-- The labels of the function. -/
def labels (f : FunctionCode) : List Label := f.lines.filterMap Instr.label?

theorem results_eq (f : FunctionCode) : f.results = f.body.filterMap Instr.result? := by
  have head : f.head.result? = none := rfl
  unfold results lines
  rw [cons_append, filterMap_cons_none head, filterMap_append]
  exact List.append_nil _

theorem labels_eq (f : FunctionCode) : f.labels = f.body.filterMap Instr.label? := by
  have head : f.head.label? = none := rfl
  unfold labels lines
  rw [cons_append, filterMap_cons_none head, filterMap_append]
  exact List.append_nil _

theorem results_written (f : FunctionCode) : f.written.filterMap Instr.result? = f.results := by
  unfold written
  rw [filterMap_append]
  exact List.append_nil _

theorem labels_written (f : FunctionCode) : f.written.filterMap Instr.label? = f.labels := by
  unfold written
  rw [filterMap_append]
  exact List.append_nil _

end FunctionCode

namespace Routine

/-- The frame, if the function has one. -/
def array (f : Routine) : List Register := if 0 < f.frameSize then [.frame] else []

theorem addresses_eq (f : Routine) : f.addresses = f.array ++ f.pointers.map .temp := by
  unfold addresses array pointers
  rw [map_append]

/-- The names that are free behind functions. -/
def namesAfter : List Routine → NameSupply → NameSupply
  | [], s => s
  | f :: fs, s => namesAfter fs (f.code s).names

/-- A function gives its frame, its registers with addresses, and the registers with values that are
free before it and not behind it. -/
theorem results_function (f : Routine) (s : NameSupply) : s.registers ≤ (f.code s).names.registers ∧
      (f.function s).results.Perm
        (f.array ++ (f.pointers ++ numbers s.registers (f.code s).names.registers).map .temp) := by
  obtain ⟨grows, used, all, results⟩ := Reading.results_of_read (f.read_code s)
  obtain rfl : f.addresses = used := all.trans (List.append_nil _)
  refine ⟨grows, ?_⟩
  rw [FunctionCode.results_eq, map_append, ← append_assoc, ← addresses_eq]
  exact results

theorem results_placed (fs : List Routine) (s : NameSupply) :
    s.registers ≤ (namesAfter fs s).registers ∧
      ((placed fs s).flatMap fun q => (q.1.function q.2).results).Perm
        (fs.flatMap array ++
          (fs.flatMap pointers ++ numbers s.registers (namesAfter fs s).registers).map .temp) := by
  induction fs generalizing s with
  | nil =>
    unfold namesAfter
    rw [numbers_self]
    exact ⟨Nat.le_refl _, .refl _⟩
  | cons f fs ih =>
    obtain ⟨first, results⟩ := f.results_function s
    obtain ⟨rest, others⟩ := ih (f.code s).names
    refine ⟨Nat.le_trans first rest, ?_⟩
    have values := numbers_append first rest
    unfold placed namesAfter
    rw [flatMap_cons, flatMap_cons, flatMap_cons, ← values]
    refine (results.append others).trans (perm_iff_count.mpr fun r => ?_)
    simp only [map_append, List.count_append]
    omega

theorem labels_placed (fs : List Routine) (s : NameSupply) :
    s.labels ≤ (namesAfter fs s).labels ∧
      ((placed fs s).flatMap fun q => (q.1.function q.2).labels)
        = (numbers s.labels (namesAfter fs s).labels).map .numbered := by
  induction fs generalizing s with
  | nil =>
    unfold namesAfter
    rw [numbers_self]
    exact ⟨Nat.le_refl _, rfl⟩
  | cons f fs ih =>
    obtain ⟨first, labels⟩ := Reading.labels_of_read (f.read_code s)
    obtain ⟨rest, others⟩ := ih (f.code s).names
    refine ⟨Nat.le_trans first rest, ?_⟩
    have here : (f.function s).labels = _ := (FunctionCode.labels_eq _).trans labels
    unfold placed namesAfter
    rw [flatMap_cons, here, others, ← map_append, numbers_append first rest]

end Routine

theorem Routine.eq_frame_of_mem_array {f : Routine} {r : Register} (h : r ∈ f.array) :
    r = .frame := by
  unfold Routine.array at h
  split at h
  · exact mem_singleton.mp h
  · cases h

theorem results_runtimeCode (emitRuntime : Bool) :
    ∀ r ∈ (runtimeCode emitRuntime).flatMap FunctionCode.results,
      r = .named "%spec_ptr" ∨ r = .named "%message" := by
  cases emitRuntime <;> decide

/-! ## What functions rely on -/

namespace FunctionCode

/-- The function relies only on its own labels and registers, and on its parameters. -/
def Closed (f : FunctionCode) : Prop :=
  ∀ i ∈ f.lines, (∀ l ∈ i.refers, l ∈ f.labels) ∧ ∀ r ∈ i.reads, r ∈ f.results ∨
    ∃ i, r = .argument i

theorem Structured.closed {f : FunctionCode} (h : f.Structured) : f.Closed := by
  intro i mem
  -- The head and the end of a function rely on nothing.
  have inside : i = f.head ∨ i ∈ f.body ∨ i = .close := by
    simpa [lines] using mem
  rcases inside with rfl | mem | rfl
  · exact ⟨forall_mem_nil _, forall_mem_nil _⟩
  · constructor
    · intro l refers
      rw [labels_eq]
      rcases h.refers_mem l (mem_flatMap.mpr ⟨i, mem, refers⟩) with mem | ⟨S, exit⟩
      · exact mem
      · exact exit.elim
    · intro r reads
      rw [results_eq]
      rcases h.reads_mem r (mem_flatMap.mpr ⟨i, mem, reads⟩) with ⟨k, -, eq⟩ | mem
      · exact .inr ⟨k, eq⟩
      · exact .inl mem
  · exact ⟨forall_mem_nil _, forall_mem_nil _⟩

end FunctionCode

/-! ## The whole output -/

section Output

variable {p : Program} {options : Options} {fs : List Routine} {registers : Nat} {b : CodeBuffer}

namespace CodeBuffer

/-- The registers that get a value in the code. -/
def results (b : CodeBuffer) : List Register := b.instrs.filterMap Instr.result?

/-- The labels of the code. -/
def labels (b : CodeBuffer) : List Label := b.instrs.filterMap Instr.label?

end CodeBuffer

namespace Program.Compiled

variable (h : p.Compiled options fs registers b)

include h

theorem results_eq : b.results = b.functions.flatMap FunctionCode.results := by
  unfold CodeBuffer.results
  rw [h.instrs_functions, filterMap_flatMap]
  simp only [FunctionCode.results_written]

theorem labels_eq : b.labels = b.functions.flatMap FunctionCode.labels := by
  unfold CodeBuffer.labels
  rw [h.instrs_functions, filterMap_flatMap]
  simp only [FunctionCode.labels_written]

theorem closed : ∀ f ∈ b.functions, f.Closed :=
  fun f mem => (h.structured f mem).closed

/-- All registers that the output gives, each as often as it does. -/
theorem results_perm :
    ∃ total, b.results.Perm ((runtimeCode options.emitRuntime).flatMap FunctionCode.results ++
      (fs.flatMap Routine.array ++ (numbers 0 total).map .temp)) := by
  obtain ⟨grows, results⟩ := Routine.results_placed fs { registers := registers }
  have pointers := Program.elaborate_pointers h.elaborated
  refine ⟨(Routine.namesAfter fs { registers := registers }).registers, ?_⟩
  rw [h.results_eq, h.functions_eq, flatMap_append, flatMap_map,
    ← numbers_append (Nat.zero_le _) grows]
  refine (results.trans ?_).append_left _
  exact ((pointers.append_right _).map _).append_left _

theorem distinct_results : ∀ r ∈ b.results, r.Distinct := by
  obtain ⟨total, results⟩ := h.results_perm
  intro r mem
  rcases mem_append.mp (results.mem_iff.mp mem) with mem | mem
  · rcases results_runtimeCode _ r mem with rfl | rfl
    · exact ⟨by decide, by decide⟩
    · exact ⟨by decide, by decide⟩
  · rcases mem_append.mp mem with mem | mem
    · obtain ⟨f, -, mem⟩ := mem_flatMap.mp mem
      rw [Routine.eq_frame_of_mem_array mem]
      trivial
    · obtain ⟨n, -, rfl⟩ := mem_map.mp mem
      trivial

theorem count_temp {n : Nat} (mem : .temp n ∈ b.results) : b.results.count (.temp n) = 1 := by
  obtain ⟨total, results⟩ := h.results_perm
  have runtime : .temp n ∉ (runtimeCode options.emitRuntime).flatMap FunctionCode.results := by
    intro mem
    rcases results_runtimeCode _ _ mem with eq | eq
    · cases eq
    · cases eq
  have arrays : .temp n ∉ fs.flatMap Routine.array := by
    intro mem
    obtain ⟨f, -, mem⟩ := mem_flatMap.mp mem
    cases Routine.eq_frame_of_mem_array mem
  have once : ((numbers 0 total).map Register.temp).count (.temp n) ≤ 1 := by
    rw [count_map_of_iff fun m _ => ⟨Register.temp.inj, congrArg _⟩]
    exact nodup_iff_count.mp nodup_range' n
  have positive := count_pos_iff.mpr mem
  have total := results.count_eq (.temp n)
  rw [List.count_append, List.count_append, count_eq_zero_of_not_mem runtime,
    count_eq_zero_of_not_mem arrays] at total
  omega

/-- A function with a frame reserves it once. -/
theorem count_frame : ∀ f ∈ b.functions, f.results.count .frame ≤ 1 := by
  rw [h.functions_eq]
  refine forall_mem_append.mpr ⟨?_, forall_mem_map.mpr fun q _ => ?_⟩
  · intro f mem
    refine Nat.le_trans (Nat.le_of_eq (count_eq_zero_of_not_mem fun given => ?_)) (Nat.zero_le _)
    rcases results_runtimeCode _ _ (mem_flatMap.mpr ⟨f, mem, given⟩) with eq | eq
    · cases eq
    · cases eq
  · obtain ⟨-, results⟩ := q.1.results_function q.2
    have numbered : .frame ∉ (q.1.pointers ++
        numbers q.2.registers (q.1.code q.2).names.registers).map Register.temp := by
      intro mem
      obtain ⟨n, -, eq⟩ := mem_map.mp mem
      cases eq
    rw [results.count_eq, List.count_append, count_eq_zero_of_not_mem numbered]
    unfold Routine.array
    split <;> decide

variable {f : FunctionCode} {i : Instr} {r : Register} {l : Label}

theorem distinct_of_mem (hf : f ∈ b.functions) (mem : r ∈ f.results ∨ ∃ i, r = .argument i) :
    r.Distinct := by
  rcases mem with mem | ⟨i, rfl⟩
  · exact h.distinct_results r (h.results_eq ▸ mem_flatMap.mpr ⟨f, hf, mem⟩)
  · trivial

/-- The labels of the output, in order. -/
theorem labels_numbered :
    b.labels = (numbers 0 (Routine.namesAfter fs { registers := registers }).labels).map
      .numbered := by
  have runtime : (runtimeCode options.emitRuntime).flatMap FunctionCode.labels = [] := by
    cases options.emitRuntime <;> decide
  rw [h.labels_eq, h.functions_eq, flatMap_append, flatMap_map, runtime, nil_append]
  exact (Routine.labels_placed fs { registers := registers }).2

theorem count_label (mem : l ∈ b.labels) : (∃ n, l = .numbered n) ∧
    (b.labels.map Label.text).count l.text = 1 := by
  rw [h.labels_numbered] at mem
  obtain ⟨n, here, rfl⟩ := mem_map.mp mem
  have once : ((numbers 0 (Routine.namesAfter fs { registers := registers }).labels).map
      fun m => (Label.numbered m).text).count (Label.numbered n).text
        = (numbers 0 (Routine.namesAfter fs { registers := registers }).labels).count n :=
    count_map_of_iff fun m _ => Label.text_eq_numbered
  refine ⟨⟨n, rfl⟩, ?_⟩
  rw [h.labels_numbered, map_map]
  refine once.trans (Nat.le_antisymm ?_ (count_pos_iff.mpr here))
  exact nodup_iff_count.mp nodup_range' n

theorem nodup_labels : (labelsOf b.instrs).Nodup := by
  show b.labels.Nodup
  rw [h.labels_numbered]
  exact List.Pairwise.map _ (fun m n ne eq => ne (Label.numbered.inj eq)) nodup_range'

/-- Every line but those between functions is one of a function. -/
theorem mem_function (mem : i ∈ b.instrs) : i = .blank ∨ ∃ f ∈ b.functions, i ∈ f.lines := by
  rw [h.instrs_functions] at mem
  obtain ⟨f, hf, mem⟩ := mem_flatMap.mp mem
  rcases mem_append.mp mem with mem | mem
  · exact .inr ⟨f, hf, mem⟩
  · exact .inl (mem_singleton.mp mem)

theorem mem_results (hf : f ∈ b.functions) (hi : i ∈ f.lines)
    (mem : r ∈ i.result?.toList ++ i.reads) : r ∈ f.results ∨ ∃ i, r = .argument i := by
  rcases mem_append.mp mem with mem | mem
  · exact .inl (mem_filterMap.mpr ⟨i, hi, Option.mem_toList.mp mem⟩)
  · exact (h.closed f hf i hi).2 r mem

theorem mem_labels (hf : f ∈ b.functions) (hi : i ∈ f.lines)
    (mem : l ∈ i.label?.toList ++ i.refers) : l ∈ f.labels := by
  rcases mem_append.mp mem with mem | mem
  · exact mem_filterMap.mpr ⟨i, hi, Option.mem_toList.mp mem⟩
  · exact (h.closed f hf i hi).1 l mem

end Program.Compiled

end Output

/-- Over all functions of a compiled program, each numbered register that occurs is given a value by
exactly one line, and each label that occurs stands exactly once. In each function the frame is
reserved at most once, and is reserved if it is used, and every label that a branch or a choice
names is there. -/
theorem Program.compile_names {p : Program} {options : Options} {text : String}
    (h : p.compile options = .ok text) :
    ∃ b, p.emit options = .ok b ∧ b.render = .ok text ∧
      b.instrs = b.functions.flatMap FunctionCode.written ∧
      (∀ i ∈ b.instrs, ∀ r ∈ i.result?.toList ++ i.reads, Begins "%t" r.text →
        (b.results.map Register.text).count r.text = 1) ∧
      (∀ i ∈ b.instrs, ∀ l ∈ i.label?.toList ++ i.refers, (b.labels.map Label.text).count l.text
        = 1) ∧
      ∀ f ∈ b.functions, (f.results.map Register.text).count "%frame" ≤ 1 ∧
        (∀ i ∈ f.lines, ∀ r ∈ i.reads, r.text = "%frame" →
          (f.results.map Register.text).count "%frame" = 1) ∧
        ∀ i ∈ f.lines, ∀ l ∈ i.refers, l ∈ f.labels := by
  obtain ⟨fs, registers, b, compiled, rendered⟩ := compiled_of_compile h
  refine ⟨b, compiled.emitted, rendered, compiled.instrs_functions, ?_, ?_, ?_⟩
  · intro i hi r mem begins
    rcases compiled.mem_function hi with rfl | ⟨f, hf, hi⟩
    · cases mem
    · have given := compiled.mem_results hf hi mem
      obtain ⟨n, rfl⟩ := (compiled.distinct_of_mem hf given).eq_temp begins
      have here : .temp n ∈ b.results := by
        rcases given with given | ⟨i, eq⟩
        · exact compiled.results_eq ▸ mem_flatMap.mpr ⟨f, hf, given⟩
        · cases eq
      rw [count_map_of_iff fun r hr => (compiled.distinct_results r hr).text_eq_temp]
      exact compiled.count_temp here
  · intro i hi l mem
    rcases compiled.mem_function hi with rfl | ⟨f, hf, hi⟩
    · cases mem
    · have here := compiled.mem_labels hf hi mem
      exact (compiled.count_label (compiled.labels_eq ▸ mem_flatMap.mpr ⟨f, hf, here⟩)).2
  · intro f hf
    have written : (f.results.map Register.text).count Register.frame.text
        = f.results.count .frame :=
      count_map_of_iff fun r hr => (compiled.distinct_of_mem hf (.inl hr)).text_eq_frame
    have atMost := compiled.count_frame f hf
    refine ⟨Nat.le_trans (Nat.le_of_eq written) atMost, ?_, ?_⟩
    · intro i hi r mem eq
      have given := compiled.mem_results hf hi (mem_append_right _ mem)
      obtain rfl := (compiled.distinct_of_mem hf given).text_eq_frame.mp eq
      have here : .frame ∈ f.results := by
        rcases given with given | ⟨i, eq⟩
        · exact given
        · cases eq
      have positive := count_pos_iff.mpr here
      exact written.trans (Nat.le_antisymm atMost positive)
    · exact fun i hi l mem => compiled.mem_labels hf hi (mem_append_right _ mem)

theorem Program.countdown_names : ∃ text b, countdown.compile {} = .ok text ∧
      countdown.emit {} = .ok b ∧
      ∀ i ∈ b.instrs, ∀ r ∈ i.result?.toList ++ i.reads, Begins "%t" r.text →
        (b.results.map Register.text).count r.text = 1 := by
  obtain ⟨text, compiled⟩ := countdown_compiles
  obtain ⟨b, emitted, -, -, registers, -⟩ := Program.compile_names compiled
  exact ⟨text, b, compiled, emitted, registers⟩

end Backpatch
