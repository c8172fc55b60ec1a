import Backpatch.Proofs.Code.History

/-!
# Any sequence of edits

The buffer on its own, whatever is written into it. An edit is one operation on the buffer, and a
run of edits goes on as long as none of them fails. After every run a line has as many placeholders
as it has open holes, so the holes that can be filled are the open ones (`backpatch_eq_ok_iff`),
each where its placeholder is in the text (`backpatch_texts`), and the text can be rendered as soon
as the lines are free of placeholders. `Edit.run_invariant` puts these together.
-/

namespace Backpatch

open List

/-! ## Placeholders in a text -/

/-- The characters with others in the place of the first placeholder, if there is one. -/
def replaceFirst (target : List Char) : List Char → Option (List Char)
  | [] => none
  | c :: line =>
    if c = placeholder then some (target ++ line) else (replaceFirst target line).map (c :: ·)

/-- The line with a target in the place of its leftmost or its rightmost placeholder, if it has
one. -/
def Slot.patch (slot : Slot) (target line : String) : Option String :=
  match slot with
  | .first => (replaceFirst target.toList line.toList).map String.ofList
  | .second =>
    (replaceFirst target.toList.reverse line.toList.reverse).map fun line =>
      String.ofList line.reverse

/-- What a list of holes does to the texts of the lines: hole after hole, the target takes the place
of a placeholder that is left on the line. -/
def patchTexts (target : String) (records : PatchList) (lines : List String) :
    Option (List String) :=
  records.foldlM (fun lines r => do
    let line ← lines[r.line]?
    let patched ← r.slot.patch target line
    return lines.set r.line patched) lines

theorem replaceFirst_append {before : List Char} (clean : placeholder ∉ before)
    (target after : List Char) :
    replaceFirst target (before ++ placeholder :: after) = some (before ++ (target ++ after)) := by
  induction before with
  | nil => exact if_pos rfl
  | cons c before ih =>
    have other : c ≠ placeholder := fun same => clean (mem_cons.mpr (.inl same.symm))
    have rest := ih fun mem => clean (mem_cons_of_mem c mem)
    rw [cons_append, replaceFirst, if_neg other, rest]
    rfl

/-- The text has a placeholder between two others, and it is the one that the slot stands for: no
placeholder is left of the first, and none is right of the second. -/
def Slot.Marks (slot : Slot) (before after : String) : Prop :=
  match slot with
  | .first => Clean before
  | .second => Clean after

theorem Slot.Marks.patch {slot : Slot} {before after : String} (h : slot.Marks before after)
    (target : String) :
    slot.patch target (before ++ Target.text none ++ after) = some (before ++ target ++ after) := by
  have hole : (Target.text none).toList = [placeholder] := rfl
  cases slot with
  | first =>
    have clean : placeholder ∉ before.toList := h
    have line : (before ++ Target.text none ++ after).toList
        = before.toList ++ placeholder :: after.toList := by
      simp [String.toList_append, hole]
    show (replaceFirst target.toList _).map _ = _
    rw [line, replaceFirst_append clean, Option.map_some]
    refine congrArg some (String.toList_inj.mp ?_)
    simp [String.toList_append]
  | second =>
    have clean : placeholder ∉ after.toList.reverse := fun mem => h (mem_reverse.mp mem)
    have line : (before ++ Target.text none ++ after).toList.reverse
        = after.toList.reverse ++ placeholder :: before.toList.reverse := by
      simp [String.toList_append, hole]
    show (replaceFirst target.toList.reverse _).map _ = _
    rw [line, replaceFirst_append clean, Option.map_some]
    refine congrArg some (String.toList_inj.mp ?_)
    simp [String.toList_append]

namespace Instr

variable {text : String}

theorem clean_iff_count : Clean text ↔ count text = 0 :=
  count_eq_zero.symm

theorem open_le_count (t : Target) : (if some t == some none then 1 else 0) ≤ count t.text := by
  cases t with
  | none => decide
  | some l => exact Nat.zero_le _

theorem text_verbatim_append (before text : String) (rest : List (Target × String)) :
    (verbatim (before ++ text) rest).text = before ++ (verbatim text rest).text := by
  induction rest generalizing text with
  | nil => rfl
  | cons hole rest ih =>
    show (verbatim (before ++ text ++ hole.1.text ++ hole.2) rest).text
      = before ++ (verbatim (text ++ hole.1.text ++ hole.2) rest).text
    rw [← ih]
    simp only [String.append_assoc]

theorem text_verbatim_cons (text after : String) (t : Target) (rest : List (Target × String)) :
    (verbatim text ((t, after) :: rest)).text = text ++ t.text ++ (verbatim after rest).text :=
  text_verbatim_append (text ++ t.text) after rest

theorem text_verbatim_pair (text after behind : String) (t t' : Target) :
    (verbatim text [(t, after), (t', behind)]).text = text ++ t.text ++ after ++ t'.text
      ++ behind :=
  rfl

theorem count_verbatim (text : String) (rest : List (Target × String)) :
    count (verbatim text rest).text = count text + countAll rest :=
  placeholders_verbatim text rest

/-- Only the last of two holes is the second. -/
theorem isOpen_second {after : String} {t : Target} {rest : List (Target × String)}
    (h : (verbatim text ((t, after) :: rest)).isOpen .second = true) :
    ∃ behind, rest = [(none, behind)] := by
  rcases rest with _ | ⟨⟨t', behind⟩, _ | ⟨hole, rest⟩⟩
  · cases h
  · obtain rfl : t' = none := Option.some.inj (eq_of_beq h)
    exact ⟨behind, rfl⟩
  · cases h

theorem open_second_le_count (text after : String) (t : Target) (rest : List (Target × String)) :
    (if (verbatim text ((t, after) :: rest)).isOpen .second then 1 else 0) ≤ countAll rest := by
  cases isOpen : (verbatim text ((t, after) :: rest)).isOpen .second with
  | false => exact Nat.zero_le _
  | true =>
    obtain ⟨behind, rfl⟩ := isOpen_second isOpen
    rw [countAll, count_target_none, if_pos rfl]
    omega

/-- In a line with as many placeholders as open holes, each open hole is the placeholder that its
slot stands for, and nothing else changes in the text when it is filled. -/
theorem Settled.hole {i : Instr} (h : i.Settled) {slot : Slot} (isOpen : i.isOpen slot = true)
    (l : Label) : ∃ before after, i.text = before ++ Target.text none ++ after ∧
      (i.fill slot l).text = before ++ Target.text (some l) ++ after ∧ slot.Marks before after := by
  have isNone : ∀ {t : Target}, (some t == some none) = true → t = none := fun eq =>
    Option.some.inj (eq_of_beq eq)
  -- All placeholders are accounted for by open holes, so there is none in the text before them.
  have total : count i.text = (if i.isOpen .first then 1 else 0) +
      if i.isOpen .second then 1 else 0 :=
    (h : i.placeholders = _).trans i.length_openSlots
  cases i with
  | jump t =>
    cases slot with
    | first =>
      obtain rfl := isNone isOpen
      have clean : Clean "br label " := by decide
      exact ⟨"br label ", "", rfl, String.append_empty.symm, clean⟩
    | second => cases isOpen
  | branch c t f =>
    have text (t f : Target) : (branch c t f).text
        = "br i1 " ++ c.text ++ ", label " ++ t.text ++ (", label " ++ f.text) :=
      String.append_assoc ..
    cases slot with
    | first =>
      obtain rfl := isNone isOpen
      refine ⟨_, _, text none f, text (some l) f, clean_iff_count.mpr ?_⟩
      have other : (if (branch c none f).isOpen .second then 1 else 0) ≤ count f.text :=
        open_le_count f
      rw [text, count_append, count_append, count_target_none, count_append _ f.text, isOpen,
        if_pos rfl] at total
      omega
    | second =>
      obtain rfl := isNone isOpen
      have clean : Clean "" := by decide
      exact ⟨"br i1 " ++ c.text ++ ", label " ++ t.text ++ ", label ", "",
        String.append_empty.symm, String.append_empty.symm, clean⟩
  | verbatim text rest =>
    cases rest with
    | nil => cases slot <;> cases isOpen
    | cons hole rest =>
      obtain ⟨t, after⟩ := hole
      cases slot with
      | first =>
        obtain rfl := isNone isOpen
        refine ⟨_, _, text_verbatim_cons .., text_verbatim_cons .., clean_iff_count.mpr ?_⟩
        have other : (if (verbatim text ((none, after) :: rest)).isOpen .second then 1 else 0)
            ≤ countAll rest := open_second_le_count text after none rest
        rw [count_verbatim, countAll, count_target_none, isOpen, if_pos rfl] at total
        omega
      | second =>
        obtain ⟨behind, rfl⟩ := isOpen_second isOpen
        refine ⟨text ++ t.text ++ after, behind, text_verbatim_pair .., text_verbatim_pair ..,
          clean_iff_count.mpr ?_⟩
        have other : (if (verbatim text [(t, after), (none, behind)]).isOpen .first then 1 else 0)
            ≤ count t.text := open_le_count t
        rw [count_verbatim, countAll, countAll, countAll, count_target_none, isOpen,
          if_pos rfl] at total
        dsimp only at total
        omega
  | _ => cases slot <;> cases isOpen

/-- The pieces of a text have no placeholders, and one is before each of the pieces but the
first. -/
theorem pieces_clean (line : List Char) :
    placeholder ∉ (pieces line).1 ∧ (∀ piece ∈ (pieces line).2, placeholder ∉ piece) ∧
      (pieces line).2.length = line.count placeholder := by
  induction line with
  | nil => exact ⟨not_mem_nil, forall_mem_nil _, rfl⟩
  | cons c line ih =>
    obtain ⟨text, rest, length⟩ := ih
    by_cases hole : c = placeholder
    · have split : pieces (c :: line) = ([], (pieces line).1 :: (pieces line).2) := if_pos hole
      rw [split, hole, count_cons_self]
      exact ⟨not_mem_nil, forall_mem_cons.mpr ⟨text, rest⟩, congrArg (· + 1) length⟩
    · have split : pieces (c :: line) = (c :: (pieces line).1, (pieces line).2) := if_neg hole
      rw [split, count_cons_of_ne hole]
      refine ⟨fun mem => ?_, rest, length⟩
      rcases mem_cons.mp mem with same | mem
      · exact hole same.symm
      · exact text mem

/-- Where the text has a placeholder the line has a hole, and there is no other placeholder. -/
theorem ofText_eq (line : String) : ∃ text holes, ofText line = verbatim text holes ∧ Clean text ∧
    (∀ hole ∈ holes, hole.1 = none ∧ Clean hole.2) ∧ holes.length = count line := by
  obtain ⟨text, rest, length⟩ := pieces_clean line.toList
  refine ⟨_, _, rfl, clean_ofList.mpr text, forall_mem_map.mpr fun piece mem => ?_, ?_⟩
  · exact ⟨rfl, clean_ofList.mpr (rest piece mem)⟩
  · rw [length_map, length]
    rfl

theorem countAll_open {holes : List (Target × String)}
    (h : ∀ hole ∈ holes, hole.1 = none ∧ Clean hole.2) : countAll holes = holes.length := by
  induction holes with
  | nil => rfl
  | cons hole holes ih =>
    obtain ⟨⟨isNone, clean⟩, rest⟩ := forall_mem_cons.mp h
    rw [countAll, isNone, count_target_none, clean_iff_count.mp clean, ih rest, length_cons]
    omega

/-- A line with one or two placeholders has that many open holes. -/
theorem settled_ofText {line : String} (h : (ofText line).placeholders = 1 ∨
    (ofText line).placeholders = 2) : (ofText line).Settled := by
  obtain ⟨text, holes, eq, clean, allOpen, -⟩ := ofText_eq line
  have total : (verbatim text holes).placeholders = holes.length := by
    rw [placeholders_verbatim, clean_iff_count.mp clean, countAll_open allOpen, Nat.zero_add]
  rw [eq, total] at h
  unfold Settled
  rw [eq, total]
  rcases holes with _ | ⟨⟨t, after⟩, _ | ⟨⟨t', behind⟩, _ | ⟨hole, holes⟩⟩⟩
  · simp at h
  · obtain rfl : t = none := (allOpen _ mem_cons_self).1
    rfl
  · obtain rfl : t = none := (allOpen _ mem_cons_self).1
    obtain rfl : t' = none := (allOpen _ (mem_cons_of_mem _ mem_cons_self)).1
    rfl
  · simp only [length_cons] at h
    omega

end Instr

namespace CodeBuffer

variable {b b' : CodeBuffer}

/-! ## Records and lines -/

variable {records : PatchList} {l : Label} {r : PatchRecord} {line : Line} {k : Nat}

theorem line_lt_of_mem_openRecords (h : r ∈ b.openRecords) : r.line < b.lines.size := by
  obtain ⟨line, found, -⟩ := isOpen_iff.mp (mem_openRecords.mp h)
  exact (Array.getElem?_eq_some_iff.mp found).1

/-- The open records of a line are its open holes. -/
theorem openRecords_line (found : b.lines[k]? = some line) :
    (b.openRecords.filter (·.line == k)).Perm (line.instr.openSlots.map (⟨k, ·⟩)) := by
  have left : (b.openRecords.filter (·.line == k)).Nodup :=
    List.Nodup.sublist filter_sublist b.nodup_openRecords
  have right : (line.instr.openSlots.map (PatchRecord.mk k)).Nodup :=
    pairwise_map.mpr ((Instr.nodup_openSlots line.instr).imp fun ne same =>
      ne (PatchRecord.mk.inj same).2)
  refine (perm_ext_iff_of_nodup left right).mpr fun r => ?_
  rw [mem_filter, mem_openRecords, isOpen_iff, mem_map, beq_iff_eq]
  constructor
  · rintro ⟨⟨line', here, isOpen⟩, rfl⟩
    obtain rfl := Option.some.inj (here.symm.trans found)
    exact ⟨r.slot, Instr.mem_openSlots.mpr isOpen, rfl⟩
  · rintro ⟨slot, isOpen, rfl⟩
    exact ⟨⟨line, found, Instr.mem_openSlots.mp isOpen⟩, rfl⟩

theorem count_text (line : Line) (width : Nat) :
    Instr.count (line.text width) = line.instr.placeholders := by
  have blanks : Instr.count (String.ofList (replicate (line.level * width) ' ')) = 0 := by
    refine Instr.clean_iff_count.mp (clean_ofList.mpr fun mem => ?_)
    exact absurd (eq_of_mem_replicate mem) (by decide)
  unfold Line.text
  rw [Instr.count_append, blanks, Nat.zero_add]
  rfl

/-- A list of holes can be filled if each of them is open and none is there twice. -/
theorem backpatch_eq_ok_iff :
    (∃ b', b.backpatch records l = .ok b') ↔ records.Nodup ∧ ∀ r ∈ records, r ∈ b.openRecords := by
  induction records generalizing b with
  | nil => exact ⟨fun _ => ⟨nodup_nil, forall_mem_nil _⟩, fun _ => ⟨b, rfl⟩⟩
  | cons r records ih =>
    cases isOpen : b.isOpen r with
    | false =>
      constructor
      · rintro ⟨b', filled⟩
        rw [(backpatch_cons_ok filled).1] at isOpen
        cases isOpen
      · rintro ⟨-, all⟩
        rw [mem_openRecords.mp (all r mem_cons_self)] at isOpen
        cases isOpen
    | true =>
      have step : b.backpatch (r :: records) l = (b.fill r l).backpatch records l := by
        unfold backpatch
        rw [foldlM_cons, isOpen]
        rfl
      have remaining : ∀ q, q ∈ (b.fill r l).openRecords ↔ q ≠ r ∧ q ∈ b.openRecords := by
        intro q
        rw [mem_openRecords, mem_openRecords, isOpen_fill isOpen, Bool.and_eq_true, bne_iff_ne]
      rw [step, ih, nodup_cons, forall_mem_cons]
      constructor
      · rintro ⟨nodup, all⟩
        refine ⟨⟨fun mem => ?_, nodup⟩, mem_openRecords.mpr isOpen, fun q mem => ?_⟩
        · exact ((remaining r).mp (all r mem)).1 rfl
        · exact ((remaining q).mp (all q mem)).2
      · rintro ⟨⟨fresh, nodup⟩, -, all⟩
        exact ⟨nodup, fun q mem => (remaining q).mpr ⟨fun same => fresh (same ▸ mem), all q mem⟩⟩

theorem getElem?_backpatch (h : b.backpatch records l = .ok b')
    (other : ∀ r ∈ records, r.line ≠ k) : b'.lines[k]? = b.lines[k]? := by
  induction records generalizing b with
  | nil =>
    cases h
    rfl
  | cons r records ih =>
    obtain ⟨here, rest⟩ := forall_mem_cons.mp other
    obtain ⟨-, filled⟩ := backpatch_cons_ok h
    rw [ih filled rest]
    unfold fill
    rw [Array.getElem?_modify, if_neg here]

theorem indentWidth_backpatch (h : b.backpatch records l = .ok b') :
    b'.indentWidth = b.indentWidth := by
  induction records generalizing b with
  | nil =>
    cases h
    rfl
  | cons r records ih => exact (ih (backpatch_cons_ok h).2).trans rfl

theorem emitOpen_eq_ok {i : Instr} (h : b.emitOpen i = .ok (records, b')) :
    (i.placeholders = 1 ∨ i.placeholders = 2) ∧ records = i.openSlots.map (⟨b.lines.size, ·⟩) ∧
      b' = b.push i := by
  unfold emitOpen at h
  split at h
  · rename_i holes
    cases h
    exact ⟨holes, rfl, rfl⟩
  · cases h

theorem lineTexts_fill (found : b.lines[r.line]? = some line) (l : Label) : (b.fill r l).lineTexts
      = b.lineTexts.set r.line (Line.text { line with instr := line.instr.fill r.slot l }
        b.indentWidth) := by
  refine ext_getElem? fun k => ?_
  unfold lineTexts fill
  rw [getElem?_map, Array.getElem?_toList, Array.getElem?_modify, getElem?_set, getElem?_map,
    Array.getElem?_toList]
  by_cases here : r.line = k
  · subst here
    have inside : r.line < (b.lines.toList.map (·.text b.indentWidth)).length := by
      rw [length_map, Array.length_toList]
      exact (Array.getElem?_eq_some_iff.mp found).1
    rw [if_pos rfl, if_pos rfl, if_pos inside, found]
    rfl
  · rw [if_neg here, if_neg here]

/-- In the text of a line, an open hole is the placeholder that its slot stands for. -/
theorem LinesSettled.hole (h : b.LinesSettled) (found : b.lines[r.line]? = some line)
    (isOpen : line.instr.isOpen r.slot = true) (l : Label) :
    ∃ before after, line.text b.indentWidth = before ++ Target.text none ++ after ∧
      Line.text { line with instr := line.instr.fill r.slot l } b.indentWidth
        = before ++ Target.text (some l) ++ after ∧ r.slot.Marks before after := by
  obtain ⟨before, after, text, filled, marks⟩ := (h.line found).hole isOpen l
  let blanks := String.ofList (replicate (line.level * b.indentWidth) ' ')
  have clean : Clean blanks :=
    clean_ofList.mpr fun mem => absurd (eq_of_mem_replicate mem) (by decide)
  have line (t : Target) : blanks ++ (before ++ t.text ++ after)
      = blanks ++ before ++ t.text ++ after := by
    simp only [String.append_assoc]
  refine ⟨blanks ++ before, after, ?_, ?_, ?_⟩
  · exact (congrArg (blanks ++ ·) text).trans (line none)
  · exact (congrArg (blanks ++ ·) filled).trans (line (some l))
  · cases slot : r.slot with
    | first =>
      rw [slot] at marks
      exact clean.append marks
    | second =>
      rw [slot] at marks
      exact marks

theorem lineTexts_found (found : b.lines[k]? = some line) :
    b.lineTexts[k]? = some (line.text b.indentWidth) := by
  unfold lineTexts
  rw [getElem?_map, Array.getElem?_toList, found]
  rfl

/-- The texts of the lines change as if there were only texts: each hole is looked for in the text,
and is found there. -/
theorem backpatch_texts (h : b.LinesSettled) (clean : Clean l.text)
    (filled : b.backpatch records l = .ok b') :
    patchTexts (Target.text (some l)) records b.lineTexts = some b'.lineTexts := by
  induction records generalizing b with
  | nil =>
    cases filled
    rfl
  | cons r records ih =>
    obtain ⟨isOpen, rest⟩ := backpatch_cons_ok filled
    obtain ⟨line, found, hole⟩ := isOpen_iff.mp isOpen
    obtain ⟨before, after, text, patched, marks⟩ := h.hole found hole l
    have rest := ih (h.fill isOpen clean) rest
    rw [lineTexts_fill found, patched] at rest
    unfold patchTexts
    rw [foldlM_cons, lineTexts_found found, text]
    show ((r.slot.patch _ (before ++ Target.text none ++ after)).bind fun patched =>
      some (b.lineTexts.set r.line patched)) >>= _ = _
    rw [marks.patch]
    exact rest

/-- The text can be rendered if no line has a placeholder. -/
theorem LinesSettled.render_eq_ok_iff (h : b.LinesSettled) :
    (∃ text, b.render = .ok text) ↔ ∀ line ∈ b.lineTexts, Clean line := by
  have closed : (∀ line ∈ b.lineTexts, Clean line) ↔ b.openRecords = [] := by
    unfold lineTexts
    rw [forall_mem_map]
    constructor
    · intro clean
      refine eq_nil_iff_forall_not_mem.mpr fun r mem => ?_
      obtain ⟨line, found, isOpen⟩ := isOpen_iff.mp (mem_openRecords.mp mem)
      have inside : line ∈ b.lines.toList := Array.mem_toList_iff.mpr (Array.mem_of_getElem? found)
      have none : line.instr.placeholders = 0 := by
        rw [← count_text line b.indentWidth]
        exact Instr.clean_iff_count.mp (clean line inside)
      have slots := Instr.mem_openSlots.mpr isOpen
      rw [Instr.openSlots_eq_nil none] at slots
      cases slots
    · intro none line mem
      refine Instr.clean_iff_count.mpr ?_
      rw [count_text]
      exact (h.clean_line none line mem).count
  rw [closed]
  unfold render
  cases b.openRecords with
  | nil => exact ⟨fun _ => rfl, fun _ => ⟨b.text, rfl⟩⟩
  | cons r records =>
    constructor
    · rintro ⟨text, rendered⟩
      cases rendered
    · intro none
      cases none

end CodeBuffer

/-! ## Edits -/

/-- One operation on the code buffer. -/
inductive Edit
  /-- A line without holes. -/
  | write (line : Instr)
  /-- A line with a hole wherever the text has a placeholder. -/
  | writeOpen (line : String)
  | jump
  | branch (condition : Register)
  /-- The label with this number. -/
  | label (index : Nat)
  | global (line : Global)
  | indent
  | dedent
  | backpatch (records : PatchList) (label : Label)

namespace Edit

/-- The buffer after the edit, and the holes that the edit creates. -/
def apply (b : CodeBuffer) : Edit → Except Fault (PatchList × CodeBuffer)
  | write line => return ([], ← b.emit line)
  | writeOpen line => b.emitOpen (.ofText line)
  | jump => return ([b.jump.1], b.jump.2)
  | branch condition => do
    let ((onTrue, onFalse), b) ← b.branch condition
    return ([onTrue, onFalse], b)
  | label index => return ([], b.emitLabel (.numbered index))
  | global line => return ([], b.emitGlobal line)
  | indent => return ([], b.increaseIndent)
  | dedent => return ([], b.decreaseIndent)
  | backpatch records target => return ([], ← b.backpatch records target)

/-- One edit after the other, as long as none fails: all the holes created, and the buffer. -/
def run : List Edit → CodeBuffer → Except Fault (PatchList × CodeBuffer)
  | [], b => return ([], b)
  | edit :: edits, b => do
    let (created, b) ← edit.apply b
    let (later, b) ← run edits b
    return (created ++ later, b)

/-- The holes that the edit fills. -/
def closes : Edit → PatchList
  | backpatch records _ => records
  | _ => []

/-- The label of the edit, if it fills holes, has no placeholder. -/
def CleanLabel : Edit → Prop
  | backpatch _ target => Clean target.text
  | _ => True

variable {edit : Edit} {edits : List Edit} {created : PatchList} {b b' : CodeBuffer}

/-- What an edit can do. A line is added that has as many placeholders as open holes, and these are
the holes created; or holes are filled; or the lines stay as they are. -/
theorem apply_cases (h : edit.apply b = .ok (created, b')) :
    (∃ line : Line, line.instr.Settled ∧ b' = { b with lines := b.lines.push line } ∧
      created = line.instr.openSlots.map (⟨b.lines.size, ·⟩) ∧ edit.closes = []) ∨
    (∃ records target, edit = backpatch records target ∧ b.backpatch records target = .ok b' ∧
      created = []) ∨
    (b'.lines = b.lines ∧ created = [] ∧ edit.closes = []) := by
  cases edit with
  | write line =>
    obtain ⟨b₁, step, done⟩ := of_bind_eq_ok h
    cases done
    obtain ⟨none, rfl⟩ := CodeBuffer.emit_eq_ok step
    refine .inl ⟨⟨b.level, line⟩, Instr.settled_of_placeholders none, rfl, ?_, rfl⟩
    rw [Instr.openSlots_eq_nil none]
    rfl
  | writeOpen line =>
    have step : b.emitOpen (.ofText line) = .ok (created, b') := h
    obtain ⟨holes, rfl, rfl⟩ := CodeBuffer.emitOpen_eq_ok step
    exact .inl ⟨⟨b.level, .ofText line⟩, Instr.settled_ofText holes, rfl, rfl, rfl⟩
  | jump =>
    cases h
    exact .inl ⟨⟨b.level, .jump none⟩, Instr.settled_jump, rfl, rfl, rfl⟩
  | branch condition =>
    obtain ⟨⟨⟨onTrue, onFalse⟩, b₁⟩, step, done⟩ := of_bind_eq_ok h
    cases done
    obtain ⟨two, rfl, rfl, rfl⟩ := CodeBuffer.branch_eq_ok step
    exact .inl ⟨⟨b.level, .branch condition none none⟩, two, rfl, rfl, rfl⟩
  | label index =>
    cases h
    have clean : Clean (Label.text (.numbered index) ++ ":") :=
      ((by decide : Clean "L").append (clean_nat index)).append (by decide)
    exact .inl ⟨⟨0, .label (.numbered index)⟩, Instr.settled_of_placeholders clean.count,
      rfl, rfl, rfl⟩
  | global line | indent | dedent =>
    cases h
    exact .inr (.inr ⟨rfl, rfl, rfl⟩)
  | backpatch records target =>
    obtain ⟨b₁, step, done⟩ := of_bind_eq_ok h
    cases done
    exact .inr (.inl ⟨records, target, rfl, step, rfl⟩)

theorem apply_settled (h : edit.apply b = .ok (created, b')) (clean : edit.CleanLabel)
    (settled : b.LinesSettled) : b'.LinesSettled := by
  rcases apply_cases h with ⟨line, own, rfl, -, -⟩ | ⟨records, target, rfl, step, -⟩ | ⟨same, -, -⟩
  · exact settled.push own
  · exact settled.backpatch clean step
  · unfold CodeBuffer.LinesSettled
    rw [same]
    exact settled

/-- Holes that were open or are created are filled or still open. -/
theorem apply_balance (h : edit.apply b = .ok (created, b')) :
    (b.openRecords ++ created).Perm (edit.closes ++ b'.openRecords) := by
  rcases apply_cases h with ⟨line, -, rfl, rfl, none⟩ | ⟨records, target, rfl, step, rfl⟩
    | ⟨same, rfl, none⟩
  · rw [none, CodeBuffer.openRecords_push]
    exact .refl _
  · rw [List.append_nil]
    exact CodeBuffer.openRecords_backpatch step
  · have kept : b'.openRecords = b.openRecords := by
      unfold CodeBuffer.openRecords
      rw [same]
    rw [none, kept, List.append_nil]
    exact .refl _

theorem run_settled (h : run edits b = .ok (created, b')) (clean : ∀ edit ∈ edits, edit.CleanLabel)
    (settled : b.LinesSettled) : b'.LinesSettled := by
  induction edits generalizing b created with
  | nil =>
    cases h
    exact settled
  | cons edit edits ih =>
    obtain ⟨⟨first, b₁⟩, step, h⟩ := of_bind_eq_ok h
    obtain ⟨⟨later, b₂⟩, rest, done⟩ := of_bind_eq_ok h
    cases done
    obtain ⟨here, after⟩ := forall_mem_cons.mp clean
    exact ih rest after (apply_settled step here settled)

theorem run_balance (h : run edits b = .ok (created, b')) :
    (b.openRecords ++ created).Perm (edits.flatMap closes ++ b'.openRecords) := by
  induction edits generalizing b created with
  | nil =>
    cases h
    rw [List.append_nil]
    exact .refl _
  | cons edit edits ih =>
    obtain ⟨⟨first, b₁⟩, step, h⟩ := of_bind_eq_ok h
    obtain ⟨⟨later, b₂⟩, rest, done⟩ := of_bind_eq_ok h
    cases done
    show (b.openRecords ++ (first ++ later)).Perm
      (edit.closes ++ edits.flatMap closes ++ b'.openRecords)
    rw [← append_assoc, append_assoc edit.closes]
    refine ((apply_balance step).append_right later).trans ?_
    rw [append_assoc]
    exact (ih rest).append_left _

/-- In every buffer that edits make of an empty one, the open holes are those created and not filled
yet. They are on lines that exist, at most two on a line, and as many as the line has placeholders.
A list of holes can be filled exactly if they are all open and none is in the list twice; every hole
is then found as a placeholder in the text of its line, and other lines do not change. The text can
be rendered exactly if no line has a placeholder. -/
theorem run_invariant {width : Nat} {edits : List Edit} {created : PatchList} {b : CodeBuffer}
    (ran : run edits { indentWidth := width } = .ok (created, b))
    (clean : ∀ edit ∈ edits, edit.CleanLabel) :
    created.Perm (edits.flatMap closes ++ b.openRecords) ∧
    (∀ r ∈ b.openRecords, r.line < b.lines.size) ∧
    (∀ (k : Nat) (line : String), b.lineTexts[k]? = some line →
      line.toList.count placeholder ≤ 2 ∧
      line.toList.count placeholder = (b.openRecords.filter (·.line == k)).length) ∧
    (∀ (records : PatchList) (target : Label),
      (∃ b', b.backpatch records target = .ok b') ↔ records.Nodup ∧
        ∀ r ∈ records, r ∈ b.openRecords) ∧
    (∀ (records : PatchList) (target : Label) (b' : CodeBuffer), Clean target.text →
      b.backpatch records target = .ok b' →
        patchTexts (Target.text (some target)) records b.lineTexts = some b'.lineTexts ∧
        b'.globalTexts = b.globalTexts ∧
        ∀ k : Nat, (∀ r ∈ records, r.line ≠ k) → b'.lineTexts[k]? = b.lineTexts[k]?) ∧
    ((∃ text, b.render = .ok text) ↔ ∀ line ∈ b.lineTexts, placeholder ∉ line.toList) := by
  have settled : b.LinesSettled := run_settled ran clean (forall_mem_nil _)
  refine ⟨run_balance ran, fun r => CodeBuffer.line_lt_of_mem_openRecords, ?_,
    fun _ _ => CodeBuffer.backpatch_eq_ok_iff, ?_, settled.render_eq_ok_iff⟩
  · intro k text found
    unfold CodeBuffer.lineTexts at found
    rw [getElem?_map, Array.getElem?_toList] at found
    obtain ⟨line, here, rfl⟩ := Option.map_eq_some_iff.mp found
    have total : (line.text b.indentWidth).toList.count placeholder = line.instr.openSlots.length :=
      (CodeBuffer.count_text line b.indentWidth).trans (settled.line here)
    have records : (b.openRecords.filter (·.line == k)).length = line.instr.openSlots.length := by
      rw [(CodeBuffer.openRecords_line here).length_eq, length_map]
    exact ⟨total ▸ length_filter_le _ _, total.trans records.symm⟩
  · intro records target b' cleanTarget filled
    refine ⟨CodeBuffer.backpatch_texts settled cleanTarget filled, ?_, fun k other => ?_⟩
    · unfold CodeBuffer.globalTexts
      rw [CodeBuffer.globals_backpatch filled]
    · unfold CodeBuffer.lineTexts
      rw [getElem?_map, getElem?_map, Array.getElem?_toList, Array.getElem?_toList,
        CodeBuffer.getElem?_backpatch filled other, CodeBuffer.indentWidth_backpatch filled]

/-- A branch, a line with two holes behind it, and a label for one hole of each. -/
def weaving : List Edit :=
  [branch (.temp 0), indent, writeOpen "switch i32 %t1, label § [ i32 0, label § ]",
    backpatch [⟨1, .first⟩, ⟨0, .second⟩] (.named "L1"), label 1]

theorem weaving_clean : ∀ edit ∈ weaving, edit.CleanLabel := by
  have label : Clean "L1" := by decide
  exact forall_mem_cons.mpr ⟨trivial, forall_mem_cons.mpr ⟨trivial, forall_mem_cons.mpr ⟨trivial,
    forall_mem_cons.mpr ⟨label, forall_mem_singleton.mpr trivial⟩⟩⟩⟩

/-- Of the four holes two are left, one on each line, and both can be filled together. -/
theorem weaving_invariant : ∃ created b, run weaving { indentWidth := 4 } = .ok (created, b) ∧
    (∀ edit ∈ weaving, edit.CleanLabel) ∧
    created.Perm ([⟨1, .first⟩, ⟨0, .second⟩] ++ b.openRecords) ∧
    ∃ b', b.backpatch [⟨0, .first⟩, ⟨1, .second⟩] (.numbered 2) = .ok b' := by
  have ran : run weaving { indentWidth := 4 } = .ok (_, _) := rfl
  obtain ⟨balance, -, -, fillable, -, -⟩ := run_invariant ran weaving_clean
  exact ⟨_, _, ran, weaving_clean, balance, (fillable _ _).mpr (by decide)⟩

end Edit

end Backpatch
