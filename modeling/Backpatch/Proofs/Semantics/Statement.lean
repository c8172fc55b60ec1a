import Mathlib.Data.List.Forall2
import Backpatch.Proofs.Semantics.Expression

/-!
# Elaboration of statements and their meaning

A statement and the action that it becomes have the same outcome (`Stmt.Yields.refines`), and so
have a function and the routine that it becomes (`FunctionDef.elaborate_refines`). The store of the
source lists the variables that can be used, the innermost first, and so does the environment of the
elaboration; the two go together entry by entry (`Shows`). A scope that is left takes its entries
with it, whereas the places of its variables keep what they hold.
-/

namespace Backpatch

open Outcome List

/-! ## Variables at their places -/

/-- The place of a name holds the value. -/
def Meaning.Keeps (σ : Locals) (m : Meaning) (v : Value) : Prop :=
  ∃ place type, m.place? = some (place, type) ∧ v.Kept type (.word (σ place))

/-- The names stand for the variables of the store, one by one. -/
def Shows (σ : Locals) (locals : List (String × Meaning)) (store : Store) : Prop :=
  List.Forall₂ (fun q entry => q.1 = entry.1 ∧ q.2.Keeps σ entry.2) locals store

/-- The places of names. -/
def placesOf (locals : List (String × Meaning)) : List Place :=
  locals.filterMap fun q => q.2.place?.map Prod.fst

variable {place : Place}

theorem Meaning.Keeps.set {σ : Locals} {m : Meaning} {v : Value} (h : m.Keeps σ v)
    (other : m.place?.map Prod.fst ≠ some place) (w : Word) : m.Keeps (σ.set place w) v := by
  obtain ⟨own, type, found, kept⟩ := h
  refine ⟨own, type, found, ?_⟩
  have ne : own ≠ place := by
    rintro rfl
    exact other (by rw [found]; rfl)
  rw [Locals.set_of_ne ne]
  exact kept

namespace Shows

variable {σ : Locals} {locals : List (String × Meaning)} {store : Store}

variable {place : Place} {type : Ty} {name : String} {m : Meaning} {v : Value} {w : Word}

variable (h : Shows σ locals store)

include h

/-- A place that no name has may be written to. -/
theorem set (new : place ∉ placesOf locals) (w : Word) : Shows (σ.set place w) locals store := by
  induction h with
  | nil => exact .nil
  | @cons q entry locals store first rest ih =>
    have other : q.2.place?.map Prod.fst ≠ some place := fun same =>
      new (mem_filterMap.mpr ⟨q, mem_cons_self, same⟩)
    have later : place ∉ placesOf locals := fun mem => by
      obtain ⟨q', mem, same⟩ := mem_filterMap.mp mem
      exact new (mem_filterMap.mpr ⟨q', mem_cons_of_mem _ mem, same⟩)
    exact .cons ⟨first.1, first.2.set other w⟩ (ih later)

theorem declare {pointer : Nat} (new : .variable pointer ∉ placesOf locals)
    (kept : v.Kept type (.word w)) (name : String) (offset : Nat) :
    Shows (σ.set (.variable pointer) w) ((name, .variable type pointer offset) :: locals)
      ((name, v) :: store) := by
  refine .cons ⟨rfl, .variable pointer, type, rfl, ?_⟩ (h.set new w)
  rw [Locals.set_self]
  exact kept

theorem lookup (found : locals.lookup name = some m) (known : m.place? = some (place, type)) :
    ∃ v, store.lookup name = some v ∧ v.Kept type (.word (σ place)) := by
  induction h with
  | nil => cases found
  | @cons q entry locals store first rest ih =>
    rw [lookup_cons] at found ⊢
    rw [← first.1]
    split at found
    · cases found
      obtain ⟨-, own, ownType, known', kept⟩ := first
      obtain ⟨rfl, rfl⟩ := Prod.mk.inj (Option.some.inj (known.symm.trans known'))
      exact ⟨entry.2, rfl, kept⟩
    · exact ih found

theorem exists_place (found : locals.lookup name = some m) : ∃ q, m.place? = some q := by
  induction h with
  | nil => cases found
  | @cons q entry locals store first rest ih =>
    rw [lookup_cons] at found
    split at found
    · cases found
      obtain ⟨-, own, ownType, known, -⟩ := first
      exact ⟨_, known⟩
    · exact ih found

/-- An assignment changes what the place of the name holds, and nothing else. -/
theorem assign (apart : (placesOf locals).Nodup) (found : locals.lookup name = some m)
    (known : m.place? = some (place, type)) (kept : (v.convert type).Kept type (.word w)) :
    ∃ store', store.assign name v = some store' ∧ Shows (σ.set place w) locals store' := by
  induction h with
  | nil => cases found
  | @cons q entry locals store first rest ih =>
    obtain ⟨named, own, ownType, place?, value⟩ := first
    have places : placesOf (q :: locals) = own :: placesOf locals :=
      filterMap_cons_some (by rw [place?]; rfl)
    rw [places, nodup_cons] at apart
    rw [lookup_cons] at found
    unfold Store.assign
    split at found
    · rename_i same
      obtain rfl := Option.some.inj found
      obtain ⟨rfl, rfl⟩ := Prod.mk.inj (Option.some.inj (place?.symm.trans known))
      rw [if_pos (named.symm.trans (eq_of_beq same).symm), value.type]
      refine ⟨_, rfl, .cons ⟨named, own, ownType, place?, ?_⟩ (Shows.set rest apart.1 w)⟩
      rw [Locals.set_self]
      exact kept
    · rename_i other
      have ne : entry.1 ≠ name := fun same =>
        absurd (beq_iff_eq.mpr (named.trans same).symm) (by rw [other]; exact Bool.false_ne_true)
      obtain ⟨store', assigned, shows⟩ := ih apart.2 found
      rw [if_neg ne, assigned]
      refine ⟨_, rfl, .cons ⟨named, Meaning.Keeps.set ⟨own, ownType, place?, value⟩ ?_ w⟩ shows⟩
      rw [place?]
      rintro ⟨rfl⟩
      refine apart.1 (mem_filterMap.mpr ⟨(name, m), mem_of_lookup found, ?_⟩)
      rw [known]
      rfl

end Shows

/-! ## Environments -/

/-- Both settings agree on what global names stand for. -/
structure Setting.AgreesOn (S : Setting) (C : CoreSetting) (globals : List (String × Meaning)) :
    Prop where
  overflow : S.overflow = C.overflow
  limit : S.limit = C.limit
  functions : ∀ name m, globals.lookup name = some m →
    ∃ returnType parameters, m = .function returnType parameters ∧
      S.Agrees C name returnType parameters

/-- The names of an environment: variables and parameters with places of their own, and global names
behind them. -/
structure Env.Has (e : Env) (locals globals : List (String × Meaning)) (registers : Nat) :
    Prop where
  names : e.here ++ e.outer = locals ++ globals
  apart : (placesOf locals).Nodup
  low : ∀ pointer, .variable pointer ∈ placesOf locals → pointer < registers

section Environments

variable {e : Env} {S : Setting} {C : CoreSetting} {locals globals : List (String × Meaning)}
  {store : Store} {σ : Locals} {registers : Nat}

section

variable (h : e.Has locals globals registers)

include h

theorem Env.Has.lookup (name : String) :
    e.get? name = (locals.lookup name).or (globals.lookup name) := by
  unfold Env.get?
  rw [h.names, lookup_append]

theorem Env.Has.local (hS : S.AgreesOn C globals) {name : String} {m : Meaning}
    (found : e.get? name = some m) {q : Place × Ty} (known : m.place? = some q) :
    locals.lookup name = some m := by
  rw [h.lookup] at found
  rcases Option.or_eq_some_iff.mp found with own | ⟨-, function⟩
  · exact own
  · obtain ⟨returnType, parameters, rfl, -⟩ := hS.functions name m function
    cases known

theorem Env.Has.agrees (hS : S.AgreesOn C globals) (shows : Shows σ locals store) :
    e.Reflects S C store σ where
  overflow := hS.overflow
  places name m place type found known := shows.lookup (h.local hS found known) known
  functions name returnType parameters found := by
    rw [h.lookup] at found
    rcases Option.or_eq_some_iff.mp found with own | ⟨-, function⟩
    · obtain ⟨q, known⟩ := shows.exists_place own
      cases known
    · obtain ⟨_, _, same, agrees⟩ := hS.functions name _ function
      cases same
      exact agrees

theorem Env.Has.inner (isLoop : Bool) : (e.inner isLoop).Has locals globals registers :=
  ⟨h.names, h.apart, h.low⟩

theorem Env.Has.new : .variable registers ∉ placesOf locals :=
  fun mem => Nat.lt_irrefl _ (h.low _ mem)

theorem Env.Has.addVariable (name : String) (type : Ty) :
    (e.addVariable name type registers).Has ((name, .variable type registers e.nextSlot) :: locals)
      globals (registers + 1) where
  names := congrArg ((name, Meaning.variable type registers e.nextSlot) :: ·) h.names
  apart := nodup_cons.mpr ⟨h.new, h.apart⟩
  low pointer mem := by
    rcases mem_cons.mp mem with same | mem
    · obtain rfl := Place.variable.inj same
      exact Nat.lt_succ_self _
    · exact Nat.lt_succ_of_lt (h.low pointer mem)

theorem Env.Has.grow {registers' : Nat} (grows : registers ≤ registers') :
    e.Has locals globals registers' :=
  ⟨h.names, h.apart, fun pointer mem => Nat.lt_of_lt_of_le (h.low pointer mem) grows⟩

end

/-- A statement adds at most one name, and leaves the others as they are. -/
theorem Stmt.Yields.has {s : Stmt} {e' : Env} {layout layout' : Layout} {a : Action}
    (h : Stmt.Yields s e layout a e' layout') (has : e.Has locals globals layout.registers)
    {locals' : List (String × Meaning)} (names : e'.here ++ e'.outer = locals' ++ globals) :
    e'.Has locals' globals layout'.registers := by
  have grown := has.grow h.grows.1.registers
  have same : e' = e → e'.Has locals' globals layout'.registers := by
    rintro rfl
    obtain rfl := append_cancel_right (names.symm.trans has.names)
    exact grown
  cases h with
  | @declaration _ type name =>
    have added := has.addVariable name (Ty.ofName type)
    obtain rfl := append_cancel_right (names.symm.trans added.names)
    exact added
  | assignment | expression | when | either | loop | «break» | «continue» | «return» | block =>
    exact same rfl

end Environments

/-! ## Statements -/

theorem Env.exists_place {e : Env} {name : String} {l : Location} {type : Ty}
    (h : e.resolve name l = .ok (place, type)) :
    ∃ m, e.get? name = some m ∧ m.place? = some (place, type) := by
  rcases Env.resolve_eq_ok h with ⟨pointer, offset, rfl, found⟩ | ⟨index, rfl, found⟩
  · exact ⟨_, found, rfl⟩
  · exact ⟨_, found, rfl⟩

/-- What a function returns, before it is converted. -/
def Returned (returnType : Ty) (v : Value) (r : Option Scalar) : Prop :=
  v.type.convertibleTo returnType = true ∧ r = v.scalar?

/-- Both leave a statement in the same way. The variables that could be used before it still can be;
those that it has declared may be in front of them, and are so where control goes on behind the
statement. -/
def Left (returnType : Ty) (e' : Env) (locals globals : List (String × Meaning))
    (r : Flow Value × Store) (r' : Flow (Option Scalar) × Locals) : Prop :=
  Flow.Related (Returned returnType) r.1 r'.1 ∧ ∃ locals', Shows r'.2 (locals' ++ locals) r.2 ∧
    (r.1 = .next → e'.here ++ e'.outer = locals' ++ locals ++ globals)

section Statements

variable {S : Setting} {C : CoreSetting} {locals globals : List (String × Meaning)} {store : Store}
  {σ : Locals} {returnType : Ty}

/-- A scope that is left takes its variables with it. -/
theorem refines_inScope {e' : Env} {body : Store → Outcome (Flow Value × Store)}
    {o : Outcome (Flow (Option Scalar) × Locals)} (before : Shows σ locals store)
    (h : Refines (Left returnType e' locals globals) (body store) o) :
    Refines (fun r r' => Flow.Related (Returned returnType) r.1 r'.1 ∧ Shows r'.2 locals r.2)
      (inScope body store) o := by
  refine h.bind_left fun r r' left => .pure ?_
  obtain ⟨flow, after⟩ := r
  obtain ⟨flows, locals', shows, -⟩ := left
  refine ⟨flows, ?_⟩
  have count : after.length - store.length = locals'.length := by
    rw [← List.Forall₂.length_eq shows, ← List.Forall₂.length_eq before, length_append,
      Nat.add_sub_cancel]
  have dropped := forall₂_drop locals'.length shows
  rw [drop_left] at dropped
  unfold Store.leave
  rw [count]
  exact dropped

/-- Behind a statement that declares nothing. -/
theorem Left.same {e : Env} {r : Flow Value × Store} {r' : Flow (Option Scalar) × Locals}
    (names : e.here ++ e.outer = locals ++ globals)
    (h : Flow.Related (Returned returnType) r.1 r'.1 ∧ Shows r'.2 locals r.2) :
    Left returnType e locals globals r r' :=
  ⟨h.1, [], h.2, fun _ => names⟩

theorem Typed.Means.action {typed : Typed} {o : Outcome Value} (h : typed.Means C σ o) :
    Refines (fun r r' => r = ((.next : Flow Value), store) ∧ r' = (.next, σ)) (o >>= fun _ =>
      pure (.next, store)) (typed.action.exec C σ) := by
  cases typed with
  | value type term => exact h.2.bind fun _ _ _ => .pure ⟨rfl, rfl⟩
  | truth test => exact Refines.bind h fun _ _ _ => .pure ⟨rfl, rfl⟩
  | void name arguments =>
    unfold Typed.action Action.exec
    rw [← bind_assoc]
    refine Refines.bind h fun v r related => ?_
    obtain ⟨-, rfl⟩ := related
    exact .pure ⟨rfl, rfl⟩

mutual

/-- A statement and the action that it becomes have the same outcome. -/
theorem Stmt.Yields.refines (hS : S.AgreesOn C globals) :
    ∀ {s : Stmt} {e e' : Env} {layout layout' : Layout}
    {a : Action} {locals : List (String × Meaning)} {store : Store} {σ : Locals},
    Stmt.Yields s e layout a e' layout' → e.Has locals globals layout.registers →
      Shows σ locals store →
      Refines (Left e.returnType e' locals globals) (s.exec S store) (a.exec C σ)
  | _, e, _, layout, _, _, locals, store, σ, @Stmt.Yields.declaration _ _ name _ _ _ _ .none
      storable converts free, has, shows => by
    have kept : Value.Kept _ _ (.word 0) :=
      ⟨Value.type_initial storable, Value.scalar?_initial storable⟩
    exact .pure ⟨.next, [_], shows.declare has.new kept name e.nextSlot, fun _ =>
      (has.addVariable name _).names⟩
  | _, e, _, layout, _, _, locals, store, σ,
      @Stmt.Yields.declaration _ _ name _ _ _ _ (.some value) storable converts free,
        has, shows => by
    have meaning := value.means (has.agrees hS shows)
    refine meaning.bind_number (Ty.isSpecial_of_convertibleTo converts storable) fun v w kept => ?_
    exact .pure ⟨.next, [_], shows.declare has.new (kept.convert converts) name e.nextSlot,
      fun _ => (has.addVariable name _).names⟩
  | _, e, _, layout, _, _, locals, store, σ, .assignment value resolved converts, has, shows => by
    have meaning := value.means (has.agrees hS shows)
    obtain ⟨m, found, known⟩ := Env.exists_place resolved
    have named := has.local hS found known
    obtain ⟨old, -, own⟩ := shows.lookup named known
    refine meaning.bind_number (Ty.isSpecial_of_convertibleTo converts own.storable)
      fun v w kept => ?_
    obtain ⟨store', assigned, shows'⟩ := shows.assign has.apart named known (kept.convert converts)
    rw [assigned]
    exact .pure (.same has.names ⟨.next, shows'⟩)
  | _, _, _, _, _, _, _, _, _, .expression value, has, shows => by
    refine (value.means (has.agrees hS shows)).action.imp fun r r' related => ?_
    obtain ⟨rfl, rfl⟩ := related
    exact .same has.names ⟨.next, shows⟩
  | _, _, _, _, _, _, _, _, _, .when condition isBool body, has, shows => by
    unfold Stmt.exec Action.exec
    rw [← bind_assoc]
    refine ((condition.means (has.agrees hS shows)).condition isBool).bind fun b b' same => ?_
    subst same
    cases b with
    | true =>
      exact (refines_inScope shows (body.refines hS (has.inner false) shows)).imp fun r r' =>
        .same has.names
    | false => exact .pure (.same has.names ⟨.next, shows⟩)
  | _, _, _, _, _, _, _, _, _, .either condition isBool thenBranch elseBranch, has, shows => by
    unfold Stmt.exec Action.exec
    rw [← bind_assoc]
    refine ((condition.means (has.agrees hS shows)).condition isBool).bind fun b b' same => ?_
    subst same
    cases b with
    | true =>
      exact (refines_inScope shows (thenBranch.refines hS (has.inner false) shows)).imp fun r r' =>
        .same has.names
    | false =>
      have later := (has.inner false).grow thenBranch.grows.1.registers
      exact (refines_inScope shows (elseBranch.refines hS later shows)).imp fun r r' =>
        .same has.names
  | _, _, _, _, _, _, _, _, _, .loop condition isBool body, has, shows => by
    unfold Stmt.exec Action.exec
    rw [hS.limit]
    refine (Refines.iterate (S := fun store σ => Shows σ _ store) ?_ ?_ C.limit _ _ shows).imp
      fun r r' related => Left.same has.names related
    · exact fun store σ shows => (condition.means (has.agrees hS shows)).condition isBool
    · exact fun store σ shows => refines_inScope shows (body.refines hS (has.inner true) shows)
  | _, _, _, _, _, _, _, _, _, .break _, has, shows => .pure (.same has.names ⟨.break, shows⟩)
  | _, _, _, _, _, _, _, _, _, .continue _, has, shows => .pure (.same has.names ⟨.continue, shows⟩)
  | _, _, _, _, _, _, _, _, _, .return .none fits, has, shows => by
    refine .pure (.same has.names ⟨.return ⟨?_, rfl⟩, shows⟩)
    rw [eq_of_beq fits]
    rfl
  | _, _, _, _, _, _, _, _, _, .return (.some value) fits, has, shows => by
    obtain ⟨notVoid, converts⟩ := Bool.and_eq_true_iff.mp fits
    have meaning := value.means (has.agrees hS shows)
    refine (meaning.term (Ty.ne_void_of_convertibleTo converts (bne_iff_ne.mp notVoid))).bind
      fun v c kept => ?_
    exact .pure (.same has.names ⟨.return ⟨kept.type ▸ converts, kept.scalar.symm⟩, shows⟩)
  | _, _, _, _, _, _, _, _, _, .block body, has, shows =>
    (refines_inScope shows (body.refines hS (has.inner false) shows)).imp fun r r' =>
      .same has.names

theorem Stmt.YieldsAll.refines (hS : S.AgreesOn C globals) : ∀ {ss : List Stmt} {e e' : Env}
    {layout layout' : Layout} {as : Actions} {locals : List (String × Meaning)} {store : Store}
    {σ : Locals},
    Stmt.YieldsAll ss e layout as e' layout' → e.Has locals globals layout.registers →
      Shows σ locals store →
      Refines (Left e.returnType e' locals globals) (Stmt.execAll S ss store) (as.exec C σ)
  | _, _, _, _, _, _, _, _, _, .nil, has, shows => .pure (.same has.names ⟨.next, shows⟩)
  | _, _, _, _, _, _, _, _, _, .cons first rest, has, shows => by
    refine (first.refines hS has shows).bind fun r r' left => ?_
    obtain ⟨flow, after⟩ := r
    obtain ⟨flow', σ'⟩ := r'
    obtain ⟨flows, added, shows', names⟩ := left
    cases flows with
    | next =>
      have has' := first.has has (names rfl)
      rw [← first.grows.2]
      refine (rest.refines hS has' shows').imp fun r r' left => ?_
      obtain ⟨flows, more, shows'', names'⟩ := left
      refine ⟨flows, more ++ added, ?_⟩
      rw [append_assoc more added]
      exact ⟨shows'', names'⟩
    | «break» => exact .pure ⟨.break, added, shows', fun next => by cases next⟩
    | «continue» => exact .pure ⟨.continue, added, shows', fun next => by cases next⟩
    | «return» related => exact .pure ⟨.return related, added, shows', fun next => by cases next⟩

end

end Statements

end Backpatch
