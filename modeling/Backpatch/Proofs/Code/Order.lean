import Mathlib.Data.List.Nodup
import Backpatch.Proofs.Code.Edits

/-!
# The order of patches

Holes are looked for in the text of their line, so what is found depends on the holes filled before.
The result does not: labels go into different holes in any order (`Fillable.patchAll`,
`Fillable.fillAll_perm`), and each line of the result is the line before with all its labels put in
at once, from left to right (`Fillable.lineTexts`). `Edit.run_patch_order` says so for every buffer
that edits make.
-/

namespace Backpatch

open List

/-- A hole and the label for it. -/
abbrev Patch := PatchRecord × Label

/-- The characters with a target in the place of each placeholder. The targets are counted from the
left. -/
def fillHoles (targets : Nat → Target) : List Char → List Char
  | [] => []
  | c :: line =>
    if c = placeholder then (targets 0).text.toList ++ fillHoles (targets <| · + 1) line
    else c :: fillHoles targets line

/-- What the patches have for a placeholder of a line: the label of the first hole for the leftmost
one, the label of the second for the rightmost. -/
def holeTarget (patches : List Patch) (k count j : Nat) : Target :=
  (if j = 0 then patches.lookup ⟨k, .first⟩ else none).or
    (if j + 1 = count then patches.lookup ⟨k, .second⟩ else none)

/-- A line of the text with the labels of all the patches for it. -/
def patchedText (patches : List Patch) (k : Nat) (line : String) : String :=
  String.ofList (fillHoles (holeTarget patches k (Instr.count line)) line.toList)

namespace CodeBuffer

def patchAll (patches : List Patch) (b : CodeBuffer) : Except Fault CodeBuffer :=
  patches.foldlM (fun b patch => b.backpatch [patch.1] patch.2) b

/-- The buffer with all the labels, whether or not the holes are open. -/
def fillAll (patches : List Patch) (b : CodeBuffer) : CodeBuffer :=
  patches.foldl (fun b patch => b.fill patch.1 patch.2) b

end CodeBuffer

/-! ## Texts -/

variable {targets targets' : Nat → Target} {line : List Char}

theorem fillHoles_congr (same : ∀ j < line.count placeholder, targets j = targets' j) :
    fillHoles targets line = fillHoles targets' line := by
  induction line generalizing targets targets' with
  | nil => rfl
  | cons c line ih =>
    unfold fillHoles
    by_cases hole : c = placeholder
    · rw [hole, count_cons_self] at same
      rw [if_pos hole, if_pos hole, same 0 (Nat.succ_pos _), ih fun j inside =>
        same (j + 1) (by omega)]
    · rw [count_cons_of_ne hole] at same
      rw [if_neg hole, if_neg hole, ih same]

theorem fillHoles_append (targets : Nat → Target) (line after : List Char) :
    fillHoles targets (line ++ after)
      = fillHoles targets line ++ fillHoles (targets <| · + line.count placeholder) after := by
  induction line generalizing targets with
  | nil => rfl
  | cons c line ih =>
    rw [cons_append, fillHoles, fillHoles]
    by_cases hole : c = placeholder
    · have shift : (fun j => targets (j + count placeholder line + 1))
          = fun j => targets (j + count placeholder (c :: line)) := by
        rw [hole, count_cons_self]
        rfl
      rw [if_pos hole, if_pos hole, ih, append_assoc, shift]
    · rw [if_neg hole, if_neg hole, ih, count_cons_of_ne hole]
      rfl

theorem fillHoles_clean (clean : placeholder ∉ line) (targets : Nat → Target) :
    fillHoles targets line = line := by
  induction line with
  | nil => rfl
  | cons c line ih =>
    obtain ⟨other, rest⟩ := not_or.mp (mt mem_cons.mpr clean)
    rw [fillHoles, if_neg (Ne.symm other), ih rest]

theorem fillHoles_none (line : List Char) : fillHoles (fun _ => none) line = line := by
  induction line with
  | nil => rfl
  | cons c line ih =>
    rw [fillHoles, ih]
    split
    · rename_i hole
      exact congrArg (· :: line) hole.symm
    · rfl

/-- A placeholder that has its target already, and the other placeholders as they are counted
then. -/
theorem fillHoles_patch {before after : String} {l : Label} (clean : Clean l.text)
    (here : targets (Instr.count before) = some l)
    (left : ∀ j < Instr.count before, targets j = targets' j)
    (right : ∀ j < Instr.count after, targets (j + (Instr.count before + 1))
      = targets' (j + Instr.count before)) :
    fillHoles targets (before ++ Target.text none ++ after).toList
      = fillHoles targets' (before ++ Target.text (some l) ++ after).toList := by
  have none : (Target.text (some l)).toList.count placeholder = 0 := Instr.count_target_some clean
  simp only [String.toList_append, fillHoles_append, count_append, none, Nat.add_zero]
  rw [fillHoles_clean (count_eq_zero.mp none), fillHoles_congr left]
  have target : fillHoles (targets <| · + count placeholder before.toList)
      (Target.text .none).toList = (Target.text (some l)).toList := by
    show (targets (0 + Instr.count before)).text.toList ++ [] = _
    rw [Nat.zero_add, here, List.append_nil]
  rw [target]
  exact congrArg _ (fillHoles_congr right)

section

variable {patches : List Patch} {r : PatchRecord} {l : Label} {k : Nat}

theorem lookup_eq_none (fresh : r ∉ patches.map Prod.fst) : patches.lookup r = none :=
  lookup_eq_none_iff.mpr fun _ mem => bne_iff_ne.mpr fun same => fresh (same ▸ mem_map_of_mem mem)

theorem lookup_cons_of_ne {q : PatchRecord} (other : q ≠ r) :
    lookup q ((r, l) :: patches) = patches.lookup q := by
  rw [lookup_cons, beq_eq_false_iff_ne.mpr other]

theorem patchedText_of_ne (other : r.line ≠ k) (line : String) :
    patchedText ((r, l) :: patches) k line = patchedText patches k line := by
  have skip (slot : Slot) : lookup ⟨k, slot⟩ ((r, l) :: patches) = patches.lookup ⟨k, slot⟩ :=
    lookup_cons_of_ne fun same => other (same ▸ rfl)
  unfold patchedText holeTarget
  rw [skip, skip]

/-- The label of one patch can be put in before the labels of the others. Where the second hole of a
line is the only one, there is nothing for the first. -/
theorem patchedText_cons {before after : String} (marks : r.slot.Marks before after)
    (clean : Clean l.text) (fresh : r ∉ patches.map Prod.fst)
    (alone : r.slot = .second → Clean before → ⟨r.line, .first⟩ ∉ patches.map Prod.fst) :
    patchedText ((r, l) :: patches) r.line (before ++ Target.text none ++ after)
      = patchedText patches r.line (before ++ Target.text (some l) ++ after) := by
  obtain ⟨k, slot⟩ := r
  have self : lookup ⟨k, slot⟩ ((⟨k, slot⟩, l) :: patches) = some l := by
    rw [lookup_cons, beq_self_eq_true]
  unfold patchedText
  simp only [Instr.count_append, Instr.count_target_none, Instr.count_target_some clean,
    Nat.add_zero]
  refine congrArg String.ofList (fillHoles_patch clean ?_ (fun j inside => ?_) fun j inside => ?_)
  all_goals
    unfold holeTarget
    cases slot with
    | first =>
      have none := Instr.clean_iff_count.mp marks
      have second : (⟨k, .second⟩ : PatchRecord) ≠ ⟨k, .first⟩ := by simp
      simp only [none, self, lookup_cons_of_ne second, lookup_eq_none fresh]
      grind
    | second =>
      have none := Instr.clean_iff_count.mp marks
      have first : (⟨k, .first⟩ : PatchRecord) ≠ ⟨k, .second⟩ := by simp
      simp only [none, self, lookup_cons_of_ne first, lookup_eq_none fresh]
      grind [lookup_eq_none, Instr.clean_iff_count]

end

/-! ## Buffers -/

theorem Instr.fill_comm (i : Instr) {slot other : Slot} (ne : slot ≠ other) (l m : Label) :
    (i.fill slot l).fill other m = (i.fill other m).fill slot l := by
  have cases : ∀ slot other : Slot, slot ≠ other →
      ∀ l m, (i.fill slot l).fill other m = (i.fill other m).fill slot l := by
    cases i with
    | verbatim text rest =>
      rcases rest with _ | ⟨hole, _ | ⟨hole', _ | ⟨hole'', rest⟩⟩⟩ <;> intro slot other ne l m <;>
        cases slot <;> cases other <;> first | rfl | exact absurd rfl ne
    | _ =>
      intro slot other ne l m
      cases slot <;> cases other <;> first | rfl | exact absurd rfl ne
  exact cases slot other ne l m

namespace CodeBuffer

variable {b b' : CodeBuffer} {patches order : List Patch} {records : PatchList} {l : Label}

theorem fill_comm (b : CodeBuffer) {r q : PatchRecord} (ne : r ≠ q) (l m : Label) :
    (b.fill r l).fill q m = (b.fill q m).fill r l := by
  have lines : ((b.fill r l).fill q m).lines = ((b.fill q m).fill r l).lines := by
    refine Array.ext_getElem? fun k => ?_
    unfold fill
    simp only [Array.getElem?_modify]
    by_cases here : r.line = k
    · by_cases there : q.line = k
      · have slots : r.slot ≠ q.slot := fun same => ne (by cases r; cases q; simp_all)
        simp only [if_pos here, if_pos there, Option.map_map]
        refine congrArg (Option.map · _) (funext fun line => ?_)
        exact congrArg (Line.mk line.level) (line.instr.fill_comm slots l m)
      · simp only [if_pos here, if_neg there]
    · simp only [if_neg here]
  exact congrArg ({ b with lines := · }) lines

theorem patch_eq_ok {r : PatchRecord} (isOpen : b.isOpen r = true) (l : Label) :
    b.backpatch [r] l = .ok (b.fill r l) := by
  unfold backpatch
  rw [foldlM_cons, isOpen]
  rfl

/-- The patches are for different holes, and all of these are open. -/
structure Fillable (b : CodeBuffer) (patches : List Patch) : Prop where
  distinct : (patches.map Prod.fst).Nodup
  isOpen : ∀ patch ∈ patches, b.isOpen patch.1 = true

/-- After one of the patches, the others can still be made. -/
theorem Fillable.cons {r : PatchRecord} (h : b.Fillable ((r, l) :: patches)) :
    b.isOpen r = true ∧ r ∉ patches.map Prod.fst ∧ (b.fill r l).Fillable patches := by
  obtain ⟨fresh, distinct⟩ := nodup_cons.mp h.distinct
  obtain ⟨here, rest⟩ := forall_mem_cons.mp h.isOpen
  refine ⟨here, fresh, distinct, fun patch mem => ?_⟩
  have other : patch.1 ≠ r := fun same => fresh (mem_map.mpr ⟨patch, mem, same⟩)
  rw [isOpen_fill here, rest patch mem, Bool.and_true]
  exact bne_iff_ne.mpr other

theorem Fillable.perm (h : b.Fillable patches) (perm : order.Perm patches) : b.Fillable order :=
  ⟨(perm.map _).nodup_iff.mpr h.distinct, fun patch mem => h.isOpen patch (perm.mem_iff.mp mem)⟩

theorem Fillable.patchAll (h : b.Fillable patches) :
    b.patchAll patches = .ok (b.fillAll patches) := by
  induction patches generalizing b with
  | nil => rfl
  | cons patch patches ih =>
    obtain ⟨here, -, rest⟩ := h.cons
    unfold CodeBuffer.patchAll
    rw [foldlM_cons, patch_eq_ok here]
    exact ih rest

theorem Fillable.fillAll_perm (h : b.Fillable patches) (perm : order.Perm patches) :
    b.fillAll order = b.fillAll patches := by
  refine (perm.symm.foldl_eq' (fun p mem q mem' b => ?_) b).symm
  by_cases same : p.1 = q.1
  · rw [inj_on_of_nodup_map h.distinct mem mem' same]
  · exact b.fill_comm same p.2 q.2

/-- The second hole of a line with one placeholder is the only open one. -/
theorem LinesSettled.alone (settled : b.LinesSettled) {k : Nat} {line : Line}
    (found : b.lines[k]? = some line)
    (isOpen : line.instr.isOpen .second = true) {before after : String}
    (text : line.text b.indentWidth = before ++ Target.text none ++ after) (left : Clean before)
    (right : Clean after) : b.isOpen ⟨k, .first⟩ = false := by
  have total : line.instr.placeholders = line.instr.openSlots.length := settled.line found
  rw [← count_text line b.indentWidth, text, Instr.count_append, Instr.count_append,
    Instr.count_target_none, Instr.clean_iff_count.mp left, Instr.clean_iff_count.mp right,
    Instr.length_openSlots, isOpen] at total
  have closed : line.instr.isOpen .first = false := by
    cases first : line.instr.isOpen .first with
    | false => rfl
    | true => simp [first] at total
  unfold CodeBuffer.isOpen
  rw [found]
  exact closed

/-- Every line has the labels of all its patches, each in its place. -/
theorem Fillable.lineTexts (h : b.Fillable patches) (settled : b.LinesSettled)
    (clean : ∀ patch ∈ patches, Clean patch.2.text) :
    (b.fillAll patches).lineTexts = b.lineTexts.mapIdx (patchedText patches) := by
  induction patches generalizing b with
  | nil =>
    have same : patchedText [] = fun _ line => line := by
      funext k line
      have none : holeTarget [] k (Instr.count line) = fun _ => none := by
        funext j
        unfold holeTarget
        rw [lookup_nil, lookup_nil, ite_self, ite_self]
        rfl
      unfold patchedText
      rw [none, fillHoles_none, String.ofList_toList]
    rw [same]
    exact (mapIdx_eq_zipIdx_map .. |>.trans (zipIdx_map_fst ..)).symm
  | cons patch patches ih =>
    obtain ⟨r, l⟩ := patch
    obtain ⟨here, fresh, rest⟩ := h.cons
    obtain ⟨own, clean⟩ := forall_mem_cons.mp clean
    obtain ⟨line, found, hole⟩ := isOpen_iff.mp here
    obtain ⟨before, after, text, filled, marks⟩ := settled.hole found hole l
    show ((b.fill r l).fillAll patches).lineTexts = _
    rw [ih rest (settled.fill here own) clean, lineTexts_fill found, filled]
    refine ext_getElem? fun k => ?_
    rw [getElem?_mapIdx, getElem?_mapIdx, getElem?_set]
    by_cases same : r.line = k
    · subst same
      have inside := (List.getElem?_eq_some_iff.mp (lineTexts_found found)).1
      rw [if_pos rfl, if_pos inside, lineTexts_found found, text, Option.map_some, Option.map_some]
      refine congrArg some (patchedText_cons marks own fresh fun second left mem => ?_).symm
      obtain ⟨patch, inside, record⟩ := mem_map.mp mem
      have first := h.isOpen patch (mem_cons_of_mem _ inside)
      rw [second] at hole marks
      rw [record, settled.alone found hole text left marks] at first
      cases first
    · rw [if_neg same]
      exact congrArg (Option.map · _) (funext fun line => (patchedText_of_ne same line).symm)

theorem backpatch_eq_patchAll (b : CodeBuffer) (records : PatchList) (l : Label) :
    b.backpatch records l = b.patchAll (records.map (·, l)) := by
  unfold patchAll
  rw [foldlM_map]
  refine congrArg (foldlM · b records) (funext fun b => funext fun r => ?_)
  unfold backpatch
  rw [foldlM_cons]
  exact (bind_pure _).symm

theorem fillable_iff : b.Fillable (records.map (·, l)) ↔ records.Nodup ∧
    ∀ r ∈ records, r ∈ b.openRecords := by
  have keys : (records.map (·, l)).map Prod.fst = records := by
    rw [map_map]
    exact map_id records
  constructor
  · intro h
    exact ⟨keys ▸ h.distinct, fun r mem =>
      mem_openRecords.mpr (h.isOpen (r, l) (mem_map_of_mem mem))⟩
  · rintro ⟨distinct, isOpen⟩
    exact ⟨keys.symm ▸ distinct, forall_mem_map.mpr fun r mem => mem_openRecords.mp (isOpen r mem)⟩

theorem backpatch_perm {others : PatchList} (perm : others.Perm records)
    (h : b.backpatch records l = .ok b') : b.backpatch others l = .ok b' := by
  have fillable : b.Fillable (records.map (·, l)) :=
    fillable_iff.mpr (backpatch_eq_ok_iff.mp ⟨b', h⟩)
  have perm : (others.map (·, l)).Perm (records.map (·, l)) := perm.map _
  rw [backpatch_eq_patchAll, fillable.patchAll] at h
  rw [backpatch_eq_patchAll, (fillable.perm perm).patchAll, fillable.fillAll_perm perm, h]

theorem globals_fillAll (b : CodeBuffer) (patches : List Patch) :
    (b.fillAll patches).globals = b.globals := by
  induction patches generalizing b with
  | nil => rfl
  | cons patch patches ih => exact ih _

end CodeBuffer

/-- In every buffer that edits make of an empty one, labels can be put into different open holes in
any order, and the buffer is the same. Each of its lines has the label of its first hole in the
place of the leftmost placeholder that it had, and the label of its second hole in the place of the
rightmost. Two lists of holes with one label can be filled one after the other or as one list, with
either in front. -/
theorem Edit.run_patch_order {width : Nat} {edits : List Edit} {created : PatchList}
    {b : CodeBuffer} (ran : run edits { indentWidth := width } = .ok (created, b))
    (clean : ∀ edit ∈ edits, edit.CleanLabel) :
    (∀ patches : List Patch, (patches.map Prod.fst).Nodup →
      (∀ patch ∈ patches, patch.1 ∈ b.openRecords ∧ Clean patch.2.text) →
      ∃ b', (∀ order : List Patch, order.Perm patches → b.patchAll order = .ok b') ∧
        b'.lineTexts = b.lineTexts.mapIdx (patchedText patches) ∧ b'.globalTexts = b.globalTexts) ∧
    ∀ (first second : PatchList) (l : Label),
      b.backpatch (first ++ second) l = (b.backpatch first l >>= (·.backpatch second l)) ∧
      ∀ b', b.backpatch (first ++ second) l = .ok b' ↔
        b.backpatch (second ++ first) l = .ok b' := by
  have settled : b.LinesSettled := run_settled ran clean (forall_mem_nil _)
  refine ⟨fun patches distinct all => ?_, fun first second l => ⟨foldlM_append .., fun b' => ?_⟩⟩
  · have fillable : b.Fillable patches :=
      ⟨distinct, fun patch mem => CodeBuffer.mem_openRecords.mp (all patch mem).1⟩
    refine ⟨b.fillAll patches, fun order perm => ?_, ?_, ?_⟩
    · rw [(fillable.perm perm).patchAll, fillable.fillAll_perm perm]
    · exact fillable.lineTexts settled fun patch mem => (all patch mem).2
    · unfold CodeBuffer.globalTexts
      rw [CodeBuffer.globals_fillAll]
  · exact ⟨CodeBuffer.backpatch_perm perm_append_comm, CodeBuffer.backpatch_perm perm_append_comm⟩

/-- The two holes that `weaving` leaves, with a label for each: the texts of the lines, whichever is
filled first. -/
theorem Edit.weaving_patch_order :
    ∃ created b b', run weaving { indentWidth := 4 } = .ok (created, b) ∧
    b.patchAll [(⟨1, .second⟩, .named "L3"), (⟨0, .first⟩, .numbered 2)] = .ok b' ∧
    b.patchAll [(⟨0, .first⟩, .numbered 2), (⟨1, .second⟩, .named "L3")] = .ok b' ∧
    b'.lineTexts = ["br i1 %t0, label %L2, label %L1",
      "    switch i32 %t1, label %L1 [ i32 0, label %L3 ]", "L1:"] := by
  have ran : run weaving { indentWidth := 4 } = .ok (_, _) := rfl
  obtain ⟨patched, -⟩ := run_patch_order ran weaving_clean
  obtain ⟨b', all, texts, -⟩ := patched [(⟨0, .first⟩, .numbered 2), (⟨1, .second⟩, .named "L3")]
    (by decide) (forall_mem_cons.mpr ⟨by decide, forall_mem_singleton.mpr (by decide)⟩)
  refine ⟨_, _, b', ran, all _ (.swap ..), all _ (.refl _), texts.trans ?_⟩
  decide

end Backpatch
