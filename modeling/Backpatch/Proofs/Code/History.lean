import Backpatch.Proofs.Text.Clean

/-!
# Histories of the code buffer

What a sequence of operations does to the holes of a buffer. A history names the holes that its
operations create, and those that they close. Whatever the operations are, the holes that were open
before and the ones created since are the ones closed since and the ones still open, each once
(`History.balance`); and a line whose holes are all closed is free of placeholders
(`History.settled`).
-/

namespace Backpatch

open List

theorem of_bind_eq_ok {ε α β : Type} {m : Except ε α} {k : α → Except ε β} {r : β}
    (h : (m >>= k) = .ok r) : ∃ a, m = .ok a ∧ k a = .ok r := by
  cases m with
  | error f => exact absurd h nofun
  | ok a => exact ⟨a, rfl, h⟩

namespace Instr

variable {i : Instr} {slot : Slot} {l : Label}

theorem isOpen_fill (h : i.isOpen slot = true) (l : Label) (other : Slot) :
    (i.fill slot l).isOpen other = (other != slot && i.isOpen other) := by
  cases i with
  | jump t | branch c t f => cases slot <;> cases other <;> rfl
  | verbatim text rest =>
    rcases rest with _ | ⟨a, _ | ⟨b, _ | ⟨c, rest⟩⟩⟩ <;> cases slot <;> cases other <;> rfl
  | _ => cases slot <;> exact absurd h nofun

theorem mem_openSlots : slot ∈ i.openSlots ↔ i.isOpen slot = true := by
  unfold openSlots
  cases slot <;> simp

theorem nodup_openSlots (i : Instr) : i.openSlots.Nodup :=
  List.Nodup.sublist filter_sublist (by decide)

/-- How often the placeholder stands in a text. -/
def count (text : String) : Nat := text.toList.count placeholder

theorem count_append (a b : String) : count (a ++ b) = count a + count b := by
  unfold count
  rw [String.toList_append, List.count_append]

/-- How often the placeholder stands in holes and the texts behind them. -/
def countAll : List (Target × String) → Nat
  | [] => 0
  | hole :: rest => count hole.1.text + count hole.2 + countAll rest

theorem placeholders_verbatim (text : String) (rest : List (Target × String)) :
    (verbatim text rest).placeholders = count text + countAll rest := by
  show count (rest.foldl (fun line hole => line ++ Target.text hole.1 ++ hole.2) text) = _
  induction rest generalizing text with
  | nil => rfl
  | cons hole rest ih =>
    rw [foldl_cons, ih, count_append, count_append, countAll]
    omega

theorem count_target_some (h : Clean l.text) : count (Target.text (some l)) = 0 := by
  refine Clean.count (clean_append.mpr ⟨?_, h⟩)
  decide

theorem count_target_none : count (Target.text none) = 1 := rfl

/-- A hole that is filled is one placeholder less. -/
theorem placeholders_fill (h : i.isOpen slot = true) (hl : Clean l.text) :
    (i.fill slot l).placeholders + 1 = i.placeholders := by
  have closed := count_target_some hl
  have isNone : ∀ {t : Target}, (some t == some none) = true → t = none := fun eq =>
    Option.some.inj (eq_of_beq eq)
  have placeholders_branch : ∀ (c : Register) (t f : Target), (branch c t f).placeholders
      = count "br i1 " + count c.text + count ", label " + count t.text + count ", label "
        + count f.text := by
    intro c t f
    show count (_ ++ _) = _
    simp only [count_append]
  cases i with
  | jump t =>
    cases slot with
    | first =>
      obtain rfl := isNone h
      show count (_ ++ _) + 1 = count (_ ++ _)
      rw [count_append, count_append, closed, count_target_none]
    | second => exact absurd h nofun
  | branch c t f =>
    cases slot with
    | first =>
      obtain rfl := isNone h
      simp only [fill, placeholders_branch, closed, count_target_none]
      omega
    | second =>
      obtain rfl := isNone h
      simp only [fill, placeholders_branch, closed, count_target_none]
  | verbatim text rest =>
    rcases rest with _ | ⟨⟨a, afterA⟩, _ | ⟨⟨b, afterB⟩, rest⟩⟩
    · cases slot <;> exact absurd h nofun
    · cases slot with
      | first =>
        obtain rfl := isNone h
        simp only [fill, placeholders_verbatim, countAll, closed, count_target_none]
        omega
      | second => exact absurd h nofun
    · cases slot with
      | first =>
        obtain rfl := isNone h
        simp only [fill, placeholders_verbatim, countAll, closed, count_target_none]
        omega
      | second =>
        cases rest with
        | nil =>
          obtain rfl := isNone h
          simp only [fill, placeholders_verbatim, countAll, closed, count_target_none]
          omega
        | cons c rest => exact absurd h nofun
  | _ => cases slot <;> exact absurd h nofun

theorem openSlots_eq_nil (h : i.placeholders = 0) : i.openSlots = [] := by
  refine eq_nil_iff_forall_not_mem.mpr fun slot mem => ?_
  have clean : Clean (Label.text (.numbered 0)) := by decide
  have filled := placeholders_fill (mem_openSlots.mp mem) clean
  omega

theorem length_openSlots (i : Instr) :
    i.openSlots.length = (if i.isOpen .first then 1 else 0) +
      if i.isOpen .second then 1 else 0 := by
  unfold openSlots
  cases hf : i.isOpen .first <;> cases hs : i.isOpen .second <;> simp [hf, hs]

theorem length_openSlots_fill (h : i.isOpen slot = true) (l : Label) :
    (i.fill slot l).openSlots.length + 1 = i.openSlots.length := by
  rw [length_openSlots, length_openSlots, isOpen_fill h, isOpen_fill h]
  cases slot with
  | first =>
    rw [h]
    cases i.isOpen .second <;> rfl
  | second =>
    rw [h]
    cases i.isOpen .first <;> rfl

/-- The line has as many placeholders as it has open holes. -/
def Settled (i : Instr) : Prop := i.placeholders = i.openSlots.length

theorem settled_of_placeholders (h : i.placeholders = 0) : i.Settled := by
  unfold Settled
  rw [h, openSlots_eq_nil h]
  rfl

theorem settled_jump : (jump none).Settled := by
  show (jump none).placeholders = 1
  decide

theorem Settled.fill (hi : i.Settled) (h : i.isOpen slot = true) (hl : Clean l.text) :
    (i.fill slot l).Settled := by
  have text := placeholders_fill h hl
  have slots := length_openSlots_fill h l
  unfold Settled at hi ⊢
  omega

end Instr

namespace CodeBuffer

/-! ## Open records -/

section

variable {b b' : CodeBuffer} {r : PatchRecord} {records : PatchList} {l : Label}

theorem isOpen_iff : b.isOpen r = true ↔ ∃ line, b.lines[r.line]? = some line ∧
    line.instr.isOpen r.slot = true := by
  unfold isOpen
  cases b.lines[r.line]? with
  | none =>
    refine ⟨nofun, ?_⟩
    rintro ⟨_, absent, -⟩
    exact absurd absent nofun
  | some line =>
    refine ⟨fun h => ⟨line, rfl, h⟩, ?_⟩
    rintro ⟨_, same, h⟩
    exact Option.some.inj same ▸ h

theorem mem_openRecords : r ∈ b.openRecords ↔ b.isOpen r = true := by
  unfold openRecords
  rw [mem_flatMap, isOpen_iff]
  constructor
  · rintro ⟨⟨line, index⟩, mem, found⟩
    obtain ⟨slot, isOpen, rfl⟩ := mem_map.mp found
    have here : b.lines[index]? = some line := by
      rw [← Array.getElem?_toList]
      exact mem_zipIdx_iff_getElem?.mp mem
    exact ⟨line, here, Instr.mem_openSlots.mp isOpen⟩
  · rintro ⟨line, here, isOpen⟩
    refine ⟨(line, r.line), mem_zipIdx_iff_getElem?.mpr ?_, ?_⟩
    · rw [Array.getElem?_toList]
      exact here
    · exact mem_map.mpr ⟨r.slot, Instr.mem_openSlots.mpr isOpen, rfl⟩

theorem nodup_openRecords (b : CodeBuffer) : b.openRecords.Nodup := by
  unfold openRecords
  refine pairwise_flatMap.mpr ⟨?_, ?_⟩
  · rintro ⟨line, index⟩ -
    refine pairwise_map.mpr ((Instr.nodup_openSlots line.instr).imp ?_)
    intro a b ne eq
    exact ne (PatchRecord.mk.inj eq).2
  · have indices : b.lines.toList.zipIdx.Pairwise fun x y => x.2 ≠ y.2 := by
      have nodup : (b.lines.toList.zipIdx.map Prod.snd).Nodup := by
        rw [zipIdx_map_snd]
        exact nodup_range'
      exact pairwise_map.mp nodup
    refine indices.imp ?_
    rintro ⟨line, i⟩ ⟨line', j⟩ ne x hx y hy eq
    obtain ⟨_, -, rfl⟩ := mem_map.mp hx
    obtain ⟨_, -, rfl⟩ := mem_map.mp hy
    exact ne (PatchRecord.mk.inj eq).1

/-- The hole that is filled is open no more; no other hole changes. -/
theorem isOpen_fill (h : b.isOpen r = true) (l : Label) (q : PatchRecord) :
    (b.fill r l).isOpen q = (q != r && b.isOpen q) := by
  obtain ⟨line, here, isOpen⟩ := isOpen_iff.mp h
  unfold CodeBuffer.isOpen fill
  rw [Array.getElem?_modify]
  by_cases eq : r.line = q.line
  · rw [if_pos eq, ← eq, here]
    show (line.instr.fill r.slot l).isOpen q.slot = _
    rw [Instr.isOpen_fill isOpen]
    have same : (q.slot != r.slot) = (q != r) := by
      rw [Bool.eq_iff_iff, bne_iff_ne, bne_iff_ne]
      refine not_congr ⟨fun slot => ?_, fun record => record ▸ rfl⟩
      cases q
      cases r
      exact congr (congrArg PatchRecord.mk eq.symm) slot
    rw [same]
    rfl
  · rw [if_neg eq]
    have ne : (q != r) = true := bne_iff_ne.mpr fun same => eq (same ▸ rfl)
    rw [ne, Bool.true_and]

theorem openRecords_push (b : CodeBuffer) (line : Line) :
    openRecords { b with lines := b.lines.push line }
      = b.openRecords ++ line.instr.openSlots.map (⟨b.lines.size, ·⟩) := by
  unfold openRecords
  simp [zipIdx_append]

theorem openRecords_fill (h : b.isOpen r = true) (l : Label) :
    b.openRecords.Perm (r :: (b.fill r l).openRecords) := by
  have gone : r ∉ (b.fill r l).openRecords := by
    rw [mem_openRecords, isOpen_fill h, bne_self_eq_false, Bool.false_and]
    exact Bool.false_ne_true
  have nodup : (r :: (b.fill r l).openRecords).Nodup :=
    nodup_cons.mpr ⟨gone, nodup_openRecords _⟩
  refine (perm_ext_iff_of_nodup (nodup_openRecords b) nodup).mpr fun q => ?_
  rw [mem_cons, mem_openRecords, mem_openRecords, isOpen_fill h, Bool.and_eq_true, bne_iff_ne]
  constructor
  · intro isOpen
    by_cases eq : q = r
    · exact .inl eq
    · exact .inr ⟨eq, isOpen⟩
  · rintro (rfl | ⟨-, isOpen⟩)
    · exact h
    · exact isOpen

/-- A list of holes that is filled was open, and nothing else changes. -/
theorem backpatch_cons_ok (h : b.backpatch (r :: records) l = .ok b') :
    b.isOpen r = true ∧ (b.fill r l).backpatch records l = .ok b' := by
  unfold backpatch at h
  rw [foldlM_cons] at h
  cases isOpen : b.isOpen r with
  | true =>
    rw [isOpen] at h
    exact ⟨rfl, h⟩
  | false =>
    rw [isOpen] at h
    exact absurd h nofun

theorem openRecords_backpatch (h : b.backpatch records l = .ok b') :
    b.openRecords.Perm (records ++ b'.openRecords) := by
  induction records generalizing b with
  | nil =>
    cases h
    exact .refl _
  | cons r records ih =>
    obtain ⟨isOpen, rest⟩ := backpatch_cons_ok h
    exact (openRecords_fill isOpen l).trans ((ih rest).cons r)

theorem size_backpatch (h : b.backpatch records l = .ok b') : b'.lines.size = b.lines.size := by
  induction records generalizing b with
  | nil =>
    cases h
    rfl
  | cons r records ih =>
    obtain ⟨-, rest⟩ := backpatch_cons_ok h
    exact (ih rest).trans Array.size_modify

theorem globals_backpatch (h : b.backpatch records l = .ok b') : b'.globals = b.globals := by
  induction records generalizing b with
  | nil =>
    cases h
    rfl
  | cons r records ih =>
    obtain ⟨-, rest⟩ := backpatch_cons_ok h
    exact (ih rest).trans rfl

theorem emit_eq_ok {i : Instr} (h : b.emit i = .ok b') : i.placeholders = 0 ∧ b' = b.push i := by
  unfold emit at h
  split at h
  · rename_i none
    exact ⟨none, (Except.ok.inj h).symm⟩
  · exact absurd h nofun

theorem branch_eq_ok {condition : Register} {q : PatchRecord}
    (h : b.branch condition = .ok ((r, q), b')) :
    (Instr.branch condition none none).placeholders = 2 ∧ r = ⟨b.lines.size, .first⟩ ∧
      q = ⟨b.lines.size, .second⟩ ∧ b' = b.push (.branch condition none none) := by
  unfold branch at h
  dsimp only at h
  split at h
  · rename_i two
    cases h
    exact ⟨two, rfl, rfl, rfl⟩
  · exact absurd h nofun

end

/-! ## Histories -/

/-- A sequence of operations on the buffer, with the holes that it creates and the holes that it
closes. -/
inductive History : CodeBuffer → PatchList → PatchList → CodeBuffer → Prop
  | done {b} : History b [] [] b
  | write {b i b₁ created closed b'} (step : b.emit i = .ok b₁)
      (rest : History b₁ created closed b') : History b created closed b'
  | jump {b created closed b'} (rest : History b.jump.2 created closed b') :
      History b (b.jump.1 :: created) closed b'
  | branch {b condition r q b₁ created closed b'} (step : b.branch condition = .ok ((r, q), b₁))
      (rest : History b₁ created closed b') : History b (r :: q :: created) closed b'
  | label {b l created closed b'} (clean : Clean l.text)
      (rest : History (b.emitLabel l) created closed b') : History b created closed b'
  | global {b g created closed b'} (clean : Clean g.text)
      (rest : History (b.emitGlobal g) created closed b') : History b created closed b'
  | increaseIndent {b created closed b'} (rest : History b.increaseIndent created closed b') :
      History b created closed b'
  | decreaseIndent {b created closed b'} (rest : History b.decreaseIndent created closed b') :
      History b created closed b'
  | backpatch {b records l b₁ created closed b'} (clean : Clean l.text)
      (step : b.backpatch records l = .ok b₁) (rest : History b₁ created closed b') :
      History b created (records ++ closed) b'

namespace History

variable {b b₁ b' : CodeBuffer} {created closed created' closed' : PatchList}

theorem trans (h : History b created closed b₁) (h' : History b₁ created' closed' b') :
    History b (created ++ created') (closed ++ closed') b' := by
  induction h with
  | done => exact h'
  | write step _ ih => exact .write step (ih h')
  | jump _ ih => exact .jump (ih h')
  | branch step _ ih => exact .branch step (ih h')
  | label clean _ ih => exact .label clean (ih h')
  | global clean _ ih => exact .global clean (ih h')
  | increaseIndent _ ih => exact .increaseIndent (ih h')
  | decreaseIndent _ ih => exact .decreaseIndent (ih h')
  | backpatch clean step _ ih =>
    rw [append_assoc]
    exact .backpatch clean step (ih h')

/-- Holes that were open or have been created are closed or still open. -/
theorem balance (h : History b created closed b') :
    (b.openRecords ++ created).Perm (closed ++ b'.openRecords) := by
  induction h with
  | done => simp
  | @write b i b₁ created closed b' step _ ih =>
    obtain ⟨none, rfl⟩ := emit_eq_ok step
    have same : (b.push i).openRecords = b.openRecords := by
      unfold push
      rw [openRecords_push, Instr.openSlots_eq_nil none, map_nil, List.append_nil]
    rwa [same] at ih
  | @jump b created closed b' _ ih =>
    have grown : b.jump.2.openRecords = b.openRecords ++ [b.jump.1] := openRecords_push b _
    rw [grown, append_assoc] at ih
    exact ih
  | @branch b condition r q b₁ created closed b' step _ ih =>
    obtain ⟨-, rfl, rfl, rfl⟩ := branch_eq_ok step
    have grown : (b.push (.branch condition none none)).openRecords
        = b.openRecords ++ [⟨b.lines.size, .first⟩, ⟨b.lines.size, .second⟩] := openRecords_push b _
    rw [grown, append_assoc] at ih
    exact ih
  | @label b l created closed b' _ _ ih =>
    have same : (b.emitLabel l).openRecords = b.openRecords :=
      (openRecords_push b _).trans (List.append_nil _)
    rwa [same] at ih
  | global _ _ ih | increaseIndent _ ih | decreaseIndent _ ih => exact ih
  | @backpatch b records l b₁ created closed b' _ step _ ih =>
    rw [append_assoc]
    refine ((openRecords_backpatch step).append_right created).trans ?_
    rw [append_assoc]
    exact ih.append_left records

/-- The holes that are created are on new lines, and no hole is created twice. -/
theorem created_new (h : History b created closed b') :
    (∀ r ∈ created, b.lines.size ≤ r.line) ∧ created.Nodup := by
  have pushed : ∀ (c : CodeBuffer) (line : Line), (c.lines.push line).size = c.lines.size + 1 :=
    fun _ _ => Array.size_push _
  -- What comes later is on later lines, so it cannot be a hole of this one.
  induction h with
  | done => exact ⟨nofun, .nil⟩
  | @write b i b₁ created closed b' step _ ih =>
    obtain ⟨-, rfl⟩ := emit_eq_ok step
    have size : (b.push i).lines.size = b.lines.size + 1 := pushed _ _
    exact ⟨fun r hr => by have := ih.1 r hr; omega, ih.2⟩
  | @jump b created closed b' _ ih =>
    have size : b.jump.2.lines.size = b.lines.size + 1 := pushed _ _
    have line : b.jump.1.line = b.lines.size := rfl
    refine ⟨?_, nodup_cons.mpr ⟨fun mem => ?_, ih.2⟩⟩
    · intro r hr
      rcases mem_cons.mp hr with rfl | hr
      · exact Nat.le_refl _
      · have := ih.1 r hr
        omega
    · have := ih.1 _ mem
      omega
  | @branch b condition r q b₁ created closed b' step _ ih =>
    obtain ⟨-, rfl, rfl, rfl⟩ := branch_eq_ok step
    have size : (b.push (.branch condition none none)).lines.size = b.lines.size + 1 := pushed _ _
    have new : ∀ slot : Slot, (⟨b.lines.size, slot⟩ : PatchRecord) ∉ created := by
      intro slot mem
      have := ih.1 _ mem
      dsimp only at this
      omega
    refine ⟨?_, nodup_cons.mpr ⟨?_, nodup_cons.mpr ⟨new _, ih.2⟩⟩⟩
    · intro r hr
      rcases mem_cons.mp hr with rfl | hr
      · exact Nat.le_refl _
      rcases mem_cons.mp hr with rfl | hr
      · exact Nat.le_refl _
      · have := ih.1 r hr
        omega
    · intro mem
      rcases mem_cons.mp mem with eq | mem
      · exact absurd eq nofun
      · exact new _ mem
  | @label b l created closed b' _ _ ih =>
    have size : (b.emitLabel l).lines.size = b.lines.size + 1 := pushed _ _
    exact ⟨fun r hr => by have := ih.1 r hr; omega, ih.2⟩
  | global _ _ ih | increaseIndent _ ih | decreaseIndent _ ih => exact ih
  | @backpatch b records l b₁ created closed b' _ step _ ih =>
    have size := size_backpatch step
    exact ⟨fun r hr => size ▸ ih.1 r hr, ih.2⟩

end History

/-! ## Placeholders -/

/-- Every line has as many placeholders as it has open holes. -/
def LinesSettled (b : CodeBuffer) : Prop := ∀ line ∈ b.lines.toList, line.instr.Settled

namespace LinesSettled

variable {b b' : CodeBuffer}

theorem push (h : b.LinesSettled) {line : Line} (hl : line.instr.Settled) :
    LinesSettled { b with lines := b.lines.push line } := by
  intro other mem
  rw [Array.toList_push] at mem
  rcases mem_append.mp mem with mem | mem
  · exact h other mem
  · obtain rfl := mem_singleton.mp mem
    exact hl

theorem line (h : b.LinesSettled) {i : Nat} {line : Line} (found : b.lines[i]? = some line) :
    line.instr.Settled := by
  refine h line (mem_iff_getElem?.mpr ⟨i, ?_⟩)
  rw [Array.getElem?_toList]
  exact found

theorem fill (h : b.LinesSettled) {r : PatchRecord} (isOpen : b.isOpen r = true) {l : Label}
    (hl : Clean l.text) : (b.fill r l).LinesSettled := by
  obtain ⟨line, here, hole⟩ := isOpen_iff.mp isOpen
  intro other mem
  obtain ⟨i, found⟩ := mem_iff_getElem?.mp mem
  unfold CodeBuffer.fill at found
  rw [Array.getElem?_toList, Array.getElem?_modify] at found
  split at found
  · rename_i eq
    rw [← eq, here] at found
    obtain rfl := Option.some.inj found
    exact (h.line here).fill hole hl
  · exact h.line found

theorem backpatch (h : b.LinesSettled) {records : PatchList} {l : Label} (hl : Clean l.text)
    (step : b.backpatch records l = .ok b') : b'.LinesSettled := by
  induction records generalizing b with
  | nil =>
    cases step
    exact h
  | cons r records ih =>
    obtain ⟨isOpen, rest⟩ := backpatch_cons_ok step
    exact ih (h.fill isOpen hl) rest

/-- The lines of a buffer without open holes are free of placeholders. -/
theorem clean_line (h : b.LinesSettled) (none : b.openRecords = []) :
    ∀ line ∈ b.lines.toList, Clean line.instr.text := by
  intro line mem
  obtain ⟨i, found⟩ := mem_iff_getElem?.mp mem
  rw [Array.getElem?_toList] at found
  have closed : line.instr.openSlots = [] := by
    refine eq_nil_iff_forall_not_mem.mpr fun slot isOpen => ?_
    have mem : (⟨i, slot⟩ : PatchRecord) ∈ b.openRecords :=
      mem_openRecords.mpr (isOpen_iff.mpr ⟨line, found, Instr.mem_openSlots.mp isOpen⟩)
    rw [none] at mem
    exact absurd mem nofun
  have count : line.instr.placeholders = 0 := (h line mem).trans (congrArg List.length closed)
  exact count_eq_zero.mp count

end LinesSettled

variable {b b' : CodeBuffer} {records : PatchList} {l : Label}

/-- Every line has as many placeholders as it has open holes, and the globals have none. -/
structure Settled (b : CodeBuffer) : Prop where
  lines : ∀ line ∈ b.lines.toList, line.instr.Settled
  globals : ∀ g ∈ b.globals.toList, Clean g.text

theorem Settled.push (h : b.Settled) {line : Line} (hl : line.instr.Settled) :
    Settled { b with lines := b.lines.push line } :=
  ⟨LinesSettled.push h.lines hl, h.globals⟩

theorem Settled.emitGlobal (h : b.Settled) {g : Global} (hg : Clean g.text) :
    (b.emitGlobal g).Settled := by
  refine ⟨h.lines, fun other mem => ?_⟩
  unfold CodeBuffer.emitGlobal at mem
  rw [Array.toList_push] at mem
  rcases mem_append.mp mem with mem | mem
  · exact h.globals other mem
  · obtain rfl := mem_singleton.mp mem
    exact hg

theorem Settled.backpatch (h : b.Settled) (hl : Clean l.text)
    (step : b.backpatch records l = .ok b') : b'.Settled := by
  refine ⟨LinesSettled.backpatch h.lines hl step, ?_⟩
  rw [globals_backpatch step]
  exact h.globals

theorem History.settled {created closed : PatchList} (history : History b created closed b')
    (h : b.Settled) : b'.Settled := by
  induction history with
  | done => exact h
  | write step _ ih =>
    obtain ⟨none, rfl⟩ := emit_eq_ok step
    exact ih (h.push (Instr.settled_of_placeholders none))
  | jump _ ih => exact ih (h.push Instr.settled_jump)
  | @branch _ condition _ _ _ _ _ _ step _ ih =>
    obtain ⟨two, -, -, rfl⟩ := branch_eq_ok step
    have slots : (Instr.branch condition none none).openSlots.length = 2 := rfl
    exact ih (h.push (two.trans slots.symm))
  | label clean _ ih =>
    refine ih (h.push (Instr.settled_of_placeholders (Clean.count (clean.append ?_))))
    decide
  | global clean _ ih => exact ih (h.emitGlobal clean)
  | increaseIndent _ ih | decreaseIndent _ ih => exact ih ⟨h.lines, h.globals⟩
  | backpatch clean step _ ih => exact ih (h.backpatch clean step)

/-- The text of a buffer without open holes is free of placeholders. -/
theorem Settled.clean_text (h : b.Settled) (none : b.openRecords = []) : Clean b.text := by
  have ended : ∀ {text : String}, Clean text → Clean (text ++ "\n") := fun clean =>
    clean.append (by decide)
  refine clean_join (forall_mem_map.mpr fun text mem => ended ?_)
  rw [mem_append, mem_append] at mem
  rcases mem with (mem | mem) | mem
  · obtain ⟨g, hg, rfl⟩ := mem_map.mp mem
    exact h.globals g hg
  · split at mem
    · exact absurd mem nofun
    · obtain rfl := mem_singleton.mp mem
      decide
  · obtain ⟨line, hline, rfl⟩ := mem_map.mp mem
    refine Clean.append (clean_ofList.mpr fun blank => ?_)
      (LinesSettled.clean_line h.lines none line hline)
    exact absurd (eq_of_mem_replicate blank) (by decide)

end CodeBuffer

end Backpatch
