import Backpatch.Code.Buffer

/-!
# Open code

Code whose branches may still lead out of it. `Step W` is a line of code with exits of the kinds `W`
that are to be connected later: a piece of code with the type `List (Step Empty)` is closed, the
code of a truth value leaves by `true` or by `false`, the code of a statement by `Leave`. Connecting
the exits of a piece (`Step.bind`) makes it part of a larger one.

The open holes of a piece in the buffer are its `records`, one list for each kind of exit, and
filling such a list with a label is the same as writing the piece with that exit known
(`backpatch_records`).
-/

namespace Backpatch

open List

/-- Where a branch goes: to a label, or out of the code by one of its exits. -/
inductive Exit (W : Type)
  | goto (l : Label)
  | via (w : W)
  deriving DecidableEq, Repr

namespace Exit

variable {V W : Type}

/-- The target of a branch when the targets of the exits are these. -/
def target (ρ : W → Target) : Exit W → Target
  | goto l => some l
  | via w => ρ w

/-- Connects the exits. -/
def bind (σ : V → Exit W) : Exit V → Exit W
  | goto l => .goto l
  | via v => σ v

theorem target_bind (σ : V → Exit W) (ρ : W → Target) (e : Exit V) :
    (e.bind σ).target ρ = e.target fun v => (σ v).target ρ := by
  cases e <;> rfl

end Exit

/-- A line of open code. -/
inductive Step (W : Type)
  | line (i : Instr)
  | jump (exit : Exit W)
  | branch (condition : Register) (onTrue onFalse : Exit W)
  deriving DecidableEq, Repr

namespace Step

variable {V W : Type}

/-- The line as it is written when the targets of the exits are these. -/
def instr (ρ : W → Target) : Step W → Instr
  | line i => i
  | jump e => .jump (e.target ρ)
  | branch c t f => .branch c (t.target ρ) (f.target ρ)

def bind (σ : V → Exit W) : Step V → Step W
  | line i => .line i
  | jump e => .jump (e.bind σ)
  | branch c t f => .branch c (t.bind σ) (f.bind σ)

theorem instr_bind (σ : V → Exit W) (ρ : W → Target) (s : Step V) :
    (s.bind σ).instr ρ = s.instr fun v => (σ v).target ρ := by
  cases s <;> simp only [bind, instr, Exit.target_bind]

theorem map_instr_bind (σ : V → Exit W) (ρ : W → Target) (steps : List (Step V)) :
    (steps.map (bind σ)).map (instr ρ) = steps.map (instr fun v => (σ v).target ρ) := by
  rw [map_map]
  exact map_congr_left fun s _ => instr_bind σ ρ s

/-- Closed code has no exits. -/
def noExits : Empty → Target := nofun

/-- Closed code as a part of open code. -/
def lift (s : Step Empty) : Step W := s.bind nofun

theorem map_instr_lift (ρ : W → Target) (steps : List (Step Empty)) :
    (steps.map lift).map (instr ρ) = steps.map (instr noExits) := by
  unfold lift
  rw [map_instr_bind]
  congr 2
  exact funext nofun

variable [DecidableEq W]

/-- The slots of the line that leave by the exit. -/
def slots (w : W) : Step W → List Slot
  | line _ => []
  | jump e => if e = .via w then [.first] else []
  | branch _ t f =>
    (if t = .via w then [.first] else []) ++ if f = .via w then [.second] else []

/-- The holes that leave by the exit, when the code stands from the given line on. -/
def records (w : W) : Nat → List (Step W) → PatchList
  | _, [] => []
  | start, s :: rest => (s.slots w).map (⟨start, ·⟩) ++ records w (start + 1) rest

theorem records_append (w : W) (start : Nat) (xs ys : List (Step W)) :
    records w start (xs ++ ys) = records w start xs ++ records w (start + xs.length) ys := by
  induction xs generalizing start with
  | nil => rfl
  | cons s xs ih =>
    rw [cons_append, records, records, ih, append_assoc, length_cons]
    congr 3
    omega

/-- An exit that is passed on keeps its holes. -/
theorem records_bind [DecidableEq V] {σ : V → Exit W} {v : V} {w : W}
    (h : ∀ u, σ u = .via w ↔ u = v)
    (start : Nat) (steps : List (Step V)) : records w start (steps.map (bind σ))
      = records v start steps := by
  have exit : ∀ e : Exit V, e.bind σ = .via w ↔ e = .via v := by
    intro e
    cases e with
    | goto l => simp [Exit.bind]
    | via u => simp [Exit.bind, h]
  induction steps generalizing start with
  | nil => rfl
  | cons s steps ih =>
    rw [map_cons, records, records, ih]
    congr 2
    cases s <;> simp only [bind, slots, exit]

theorem records_bind_eq_nil {σ : V → Exit W} {w : W} (h : ∀ u, σ u ≠ .via w) (start : Nat)
    (steps : List (Step V)) : records w start (steps.map (bind σ)) = [] := by
  have exit : ∀ e : Exit V, e.bind σ ≠ .via w := by
    intro e
    cases e with
    | goto l => simp [Exit.bind]
    | via u => exact h u
  induction steps generalizing start with
  | nil => rfl
  | cons s steps ih =>
    rw [map_cons, records, ih]
    cases s <;> simp [bind, slots, exit]

/-- The code depends only on the targets of the exits that it has. -/
theorem map_instr_congr {ρ ρ' : W → Target} {start : Nat} {steps : List (Step W)}
    (h : ∀ w, ρ w = ρ' w ∨ records w start steps = []) :
    steps.map (instr ρ) = steps.map (instr ρ') := by
  induction steps generalizing start with
  | nil => rfl
  | cons s steps ih =>
    have rest : ∀ w, ρ w = ρ' w ∨ records w (start + 1) steps = [] :=
      fun w => (h w).imp_right fun nil => (append_eq_nil_iff.mp nil).2
    have here : ∀ w, ρ w = ρ' w ∨ s.slots w = [] :=
      fun w => (h w).imp_right fun nil => map_eq_nil_iff.mp (append_eq_nil_iff.mp nil).1
    have exit : ∀ e : Exit W, (∀ w, e = .via w → s.slots w ≠ []) → e.target ρ = e.target ρ' := by
      intro e used
      cases e with
      | goto l => rfl
      | via w => exact (here w).resolve_right (used w rfl)
    rw [map_cons, map_cons, ih rest]
    congr 1
    cases s with
    | line i => rfl
    | jump e =>
      have used : ∀ w, e = .via w → slots w (.jump e) ≠ [] := fun w eq => by simp [slots, eq]
      simp only [instr, exit e used]
    | branch c t f =>
      have usedTrue : ∀ w, t = .via w → slots w (.branch c t f) ≠ [] :=
        fun w eq => by simp [slots, eq]
      have usedFalse : ∀ w, f = .via w → slots w (.branch c t f) ≠ [] :=
        fun w eq => by simp [slots, eq]
      simp only [instr, exit t usedTrue, exit f usedFalse]

theorem records_lift (w : W) (start : Nat) (steps : List (Step Empty)) :
    records w start (steps.map lift) = [] :=
  records_bind_eq_nil nofun start steps

end Step

/-- The targets of exits after one of them has become known. -/
def fillExit {W : Type} [DecidableEq W] (ρ : W → Target) (w : W) (l : Label) : W → Target :=
  fun v => if v = w then some l else ρ v

/-- Connects one exit to a label. -/
def Exit.connect {W : Type} [DecidableEq W] (w : W) (l : Label) : W → Exit W :=
  fun v => if v = w then .goto l else .via v

namespace Step

variable {W : Type} [DecidableEq W]

theorem records_connect_self (w : W) (l : Label) (start : Nat) (steps : List (Step W)) :
    records w start (steps.map (bind (Exit.connect w l))) = [] := by
  apply records_bind_eq_nil
  intro v
  unfold Exit.connect
  split
  · nofun
  · rename_i ne
    intro eq
    exact ne (Exit.via.inj eq)

theorem records_connect_of_ne {v w : W} (h : v ≠ w) (l : Label) (start : Nat)
    (steps : List (Step W)) :
    records v start (steps.map (bind (Exit.connect w l))) = records v start steps := by
  apply records_bind
  intro u
  unfold Exit.connect
  split
  · rename_i eq
    exact ⟨nofun, fun eq' => absurd (eq'.symm.trans eq) h⟩
  · exact ⟨Exit.via.inj, congrArg _⟩

theorem bind_connect_connect (w : W) (l k : Label) (s : Step W) :
    (s.bind (Exit.connect w l)).bind (Exit.connect w k) = s.bind (Exit.connect w l) := by
  have exit : ∀ e : Exit W, (e.bind (Exit.connect w l)).bind (Exit.connect w k)
      = e.bind (Exit.connect w l) := by
    intro e
    cases e with
    | goto m => rfl
    | via v =>
      by_cases h : v = w
      · simp [Exit.bind, Exit.connect, h]
      · simp [Exit.bind, Exit.connect, h]
  cases s <;> simp only [bind, exit]

theorem map_instr_connect (w : W) (l : Label) (ρ : W → Target) (steps : List (Step W)) :
    (steps.map (bind (Exit.connect w l))).map (instr ρ) = steps.map (instr (fillExit ρ w l)) := by
  rw [map_instr_bind]
  congr 2
  funext v
  unfold Exit.connect fillExit
  split <;> rfl

end Step

/-- Exits of a statement: to what comes after it, and to the loop around it. -/
inductive Leave
  | next
  | break
  | continue
  deriving DecidableEq, Repr

def Instr.isLabel : Instr → Bool
  | .label _ => true
  | _ => false

/-- A line at a level of indentation, which labels ignore. -/
def Instr.atLevel (level : Nat) (i : Instr) : Line :=
  match i with
  | .label l => { level := 0, instr := .label l }
  | i => { level := level, instr := i }

theorem Instr.atLevel_instr (level : Nat) (i : Instr) : (i.atLevel level).instr = i := by
  cases i <;> rfl

theorem Instr.atLevel_fill (level : Nat) (i : Instr) (slot : Slot) (l : Label) :
    { i.atLevel level with instr := i.fill slot l } = (i.fill slot l).atLevel level := by
  cases i with
  | verbatim text rest => rcases rest with _ | ⟨a, _ | ⟨b, _ | ⟨c, rest⟩⟩⟩ <;> cases slot <;> rfl
  | _ => cases slot <;> rfl

namespace CodeBuffer

/-- The buffer with more lines and globals, at the present level of indentation. -/
def append (b : CodeBuffer) (code : List Instr) (globals : List Global) : CodeBuffer :=
  { b with
    lines := b.lines ++ (code.map (Instr.atLevel b.level)).toArray
    globals := b.globals ++ globals.toArray }

theorem append_nil (b : CodeBuffer) : b.append [] [] = b := by
  simp [append]

theorem append_append (b : CodeBuffer) (xs ys : List Instr) (gs hs : List Global) :
    (b.append xs gs).append ys hs = b.append (xs ++ ys) (gs ++ hs) := by
  simp [append, Array.append_assoc, append_toArray]

theorem size_append (b : CodeBuffer) (code : List Instr) (globals : List Global) :
    (b.append code globals).lines.size = b.lines.size + code.length := by
  simp [append]

theorem push_eq_append (b : CodeBuffer) {i : Instr} (h : i.isLabel = false) :
    b.push i = b.append [i] [] := by
  have line : i.atLevel b.level = { level := b.level, instr := i } := by
    cases i with
    | label l => cases h
    | _ => rfl
  simp [push, append, line]

theorem emitLabel_eq_append (b : CodeBuffer) (l : Label) :
    b.emitLabel l = b.append [.label l] [] := by
  simp [emitLabel, append, Instr.atLevel]

theorem emitGlobal_eq_append (b : CodeBuffer) (g : Global) : b.emitGlobal g = b.append [] [g] := by
  simp [emitGlobal, append]

theorem getElem?_append (b : CodeBuffer) (before after : List Instr) (i : Instr)
    (globals : List Global) :
    (b.append (before ++ i :: after) globals).lines[b.lines.size + before.length]?
      = some (i.atLevel b.level) := by
  simp [append]

theorem modify_length_append {α : Type} (f : α → α) (xs : List α) (a : α) (ys : List α) :
    (xs ++ a :: ys).modify xs.length f = xs ++ f a :: ys := by
  induction xs with
  | nil => rfl
  | cons x xs ih => rw [cons_append, length_cons, modify_succ_cons, ih]; rfl

/-- Filling a hole changes its line and nothing else. -/
theorem fill_append (b : CodeBuffer) (before after : List Instr) (i : Instr)
    (globals : List Global) (slot : Slot) (l : Label) :
    (b.append (before ++ i :: after) globals).fill ⟨b.lines.size + before.length, slot⟩ l
      = b.append (before ++ i.fill slot l :: after) globals := by
  let f : Line → Line := fun line => { line with instr := line.instr.fill slot l }
  have line : f (i.atLevel b.level) = (i.fill slot l).atLevel b.level := by
    simp only [f, Instr.atLevel_instr]
    exact Instr.atLevel_fill b.level i slot l
  have lines : (b.append (before ++ i :: after) globals).lines.modify
      (b.lines.size + before.length) f
        = (b.append (before ++ i.fill slot l :: after) globals).lines := by
    apply Array.ext'
    simp only [append, Array.toList_modify, Array.toList_append, map_append, map_cons,
      ← append_assoc]
    have here := modify_length_append f (b.lines.toList ++ before.map (Instr.atLevel b.level))
      (i.atLevel b.level) (after.map (Instr.atLevel b.level))
    rw [length_append, length_map, Array.length_toList, line] at here
    exact here
  exact congrArg (fun lines => { b.append (before ++ i :: after) globals with lines := lines })
    lines

theorem backpatch_singleton (b : CodeBuffer) (before after : List Instr) (i : Instr)
    (globals : List Global) (slot : Slot) (l : Label) (h : i.isOpen slot = true) :
    (b.append (before ++ i :: after) globals).backpatch [⟨b.lines.size + before.length, slot⟩] l
      = .ok (b.append (before ++ i.fill slot l :: after) globals) := by
  have isOpen : (b.append (before ++ i :: after) globals).isOpen
      ⟨b.lines.size + before.length, slot⟩ = true := by
    unfold CodeBuffer.isOpen
    rw [getElem?_append]
    simpa [Instr.atLevel_instr] using h
  simp only [backpatch, foldlM_cons, foldlM_nil, isOpen, if_true, fill_append]
  rfl

theorem backpatch_append (b : CodeBuffer) (rs qs : PatchList) (l : Label) :
    b.backpatch (rs ++ qs) l = (b.backpatch rs l).bind (·.backpatch qs l) := by
  simp only [backpatch, foldlM_append]
  rfl

variable {W : Type} [DecidableEq W]

theorem target_fillExit_of_ne {ρ : W → Target} {w : W} {l : Label} {e : Exit W}
    (h : e ≠ .via w) : e.target (fillExit ρ w l) = e.target ρ := by
  cases e with
  | goto l => rfl
  | via v =>
    have ne : v ≠ w := fun eq => h (eq ▸ rfl)
    simp [Exit.target, fillExit, ne]

theorem target_fillExit (ρ : W → Target) (w : W) (l : Label) :
    (Exit.via w).target (fillExit ρ w l) = some l := by
  simp [Exit.target, fillExit]

/-- The holes of one line that leave by an exit are filled. -/
theorem backpatch_slots (b : CodeBuffer) (before after : List Instr) (s : Step W) (ρ : W → Target)
    (w : W) (l : Label) (globals : List Global) (hw : ρ w = none) :
    (b.append (before ++ s.instr ρ :: after) globals).backpatch
        ((s.slots w).map (⟨b.lines.size + before.length, ·⟩)) l
      = .ok (b.append (before ++ s.instr (fillExit ρ w l) :: after) globals) := by
  have hole : (Exit.via w).target ρ = none := hw
  cases s with
  | line i => rfl
  | jump e =>
    by_cases he : e = .via w
    · subst he
      simp only [Step.slots, if_true, map_cons, map_nil]
      rw [backpatch_singleton _ _ _ _ _ _ _
        (by simp [Step.instr, hole, Instr.isOpen, Instr.target?])]
      simp only [Step.instr, Instr.fill, target_fillExit]
    · simp only [Step.slots, he, if_false, Step.instr, target_fillExit_of_ne he]
      rfl
  | branch c t f =>
    have first :
        (b.append (before ++ .branch c (t.target ρ) (f.target ρ) :: after) globals).backpatch
        ((if t = .via w then [Slot.first] else []).map (⟨b.lines.size + before.length, ·⟩)) l
          = .ok (b.append (before ++ .branch c (t.target (fillExit ρ w l)) (f.target ρ) :: after)
            globals) := by
      by_cases ht : t = .via w
      · subst ht
        simp only [if_true, map_cons, map_nil]
        rw [backpatch_singleton _ _ _ _ _ _ _ (by simp [hole, Instr.isOpen, Instr.target?])]
        simp only [Instr.fill, target_fillExit]
      · simp only [ht, if_false, target_fillExit_of_ne ht]
        rfl
    have second : (b.append (before ++ .branch c (t.target (fillExit ρ w l)) (f.target ρ) :: after)
        globals).backpatch
        ((if f = .via w then [Slot.second] else []).map (⟨b.lines.size + before.length, ·⟩)) l
          = .ok (b.append (before ++ .branch c (t.target (fillExit ρ w l))
            (f.target (fillExit ρ w l)) :: after) globals) := by
      by_cases hf : f = .via w
      · subst hf
        simp only [if_true, map_cons, map_nil]
        rw [backpatch_singleton _ _ _ _ _ _ _ (by simp [hole, Instr.isOpen, Instr.target?])]
        simp only [Instr.fill, target_fillExit]
      · simp only [hf, if_false, target_fillExit_of_ne hf]
        rfl
    simp only [Step.slots, Step.instr, map_append]
    rw [backpatch_append, first]
    exact second

/-- Filling the holes of an exit gives the code with that exit known. -/
theorem backpatch_records (b : CodeBuffer) (before after : List Instr) (steps : List (Step W))
    (ρ : W → Target) (w : W) (l : Label) (globals : List Global) (hw : ρ w = none) :
    (b.append (before ++ steps.map (Step.instr ρ) ++ after) globals).backpatch
        (Step.records w (b.lines.size + before.length) steps) l
      = .ok (b.append (before ++ steps.map (Step.instr (fillExit ρ w l)) ++ after) globals) := by
  induction steps generalizing before with
  | nil => rfl
  | cons s steps ih =>
    rw [Step.records, backpatch_append, append_assoc, map_cons, cons_append,
      backpatch_slots b before _ s ρ w l globals hw]
    have rest := ih (before ++ [s.instr (fillExit ρ w l)])
    rw [length_append, length_singleton, ← Nat.add_assoc] at rest
    simpa [append_assoc, Except.bind] using rest

end CodeBuffer

end Backpatch
