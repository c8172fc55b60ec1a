import Mathlib.Logic.Relation
import Backpatch.Proofs.Static.Checker

/-!
# Negations pushed inwards and casts left out

The laws of negation, and the law that a cast to the type that a value already has is the value, as
rewriting of programs. A step rewrites in any number of places that are apart from each other, and a
program is rewritten by any number of steps. Which types the names have at a place is what the
checker knows there (`Lexical`), so it is handed down to the parts of a program as the checker does
it.
-/

namespace Backpatch

mutual

/-- One step of rewriting in an expression. What is new in the result may be located anywhere. -/
inductive Expr.Rewrites (x : Lexical) : Expr → Expr → Prop
  | notNot {l l' a} : Expr.Rewrites x (.not l (.not l' a)) a
  | notAnd {l l' a b} (m n n' : Location) :
      Expr.Rewrites x (.not l (.and l' a b)) (.or m (.not n a) (.not n' b))
  | notOr {l l' a b} (m n n' : Location) :
      Expr.Rewrites x (.not l (.or l' a b)) (.and m (.not n a) (.not n' b))
  | notConditional {l l' c a b} (m n n' : Location) :
      Expr.Rewrites x (.not l (.conditional l' c a b)) (.conditional m c (.not n a) (.not n' b))
  | notBool {l l' value} (m : Location) :
      Expr.Rewrites x (.not l (.literal l' (.bool value))) (.literal m (.bool !value))
  | castSame {l target a} (same : a.check x = .ok (.ofName target)) : Expr.Rewrites x
    (.cast l target a) a
  -- Inside an expression, in any of its parts.
  | refl {a} : Expr.Rewrites x a a
  | call {l name as bs} (arguments : Expr.RewritesAll x as bs) : Expr.Rewrites x (.call l name as)
    (.call l name bs)
  | not {l a b} (operand : Expr.Rewrites x a b) : Expr.Rewrites x (.not l a) (.not l b)
  | and {l a a' b b'} (left : Expr.Rewrites x a b) (right : Expr.Rewrites x a' b') :
      Expr.Rewrites x (.and l a a') (.and l b b')
  | or {l a a' b b'} (left : Expr.Rewrites x a b) (right : Expr.Rewrites x a' b') :
      Expr.Rewrites x (.or l a a') (.or l b b')
  | arithmetic {l operator a a' b b'} (left : Expr.Rewrites x a b) (right : Expr.Rewrites x a' b') :
      Expr.Rewrites x (.arithmetic l operator a a') (.arithmetic l operator b b')
  | comparison {l operator a a' b b'} (left : Expr.Rewrites x a b) (right : Expr.Rewrites x a' b') :
      Expr.Rewrites x (.comparison l operator a a') (.comparison l operator b b')
  | cast {l target a b} (operand : Expr.Rewrites x a b) : Expr.Rewrites x (.cast l target a)
    (.cast l target b)
  | conditional {l a a' a'' b b' b''} (condition : Expr.Rewrites x a b)
      (thenValue : Expr.Rewrites x a' b')
      (elseValue : Expr.Rewrites x a'' b'') :
      Expr.Rewrites x (.conditional l a a' a'') (.conditional l b b' b'')

inductive Expr.RewritesAll (x : Lexical) : List Expr → List Expr → Prop
  | nil : Expr.RewritesAll x [] []
  | cons {a b as bs} (first : Expr.Rewrites x a b) (rest : Expr.RewritesAll x as bs) :
      Expr.RewritesAll x (a :: as) (b :: bs)

end

mutual

/-- One step of rewriting in the expressions of a statement. -/
inductive Stmt.Rewrites : Lexical → Stmt → Stmt → Prop
  | refl {x s} : Stmt.Rewrites x s s
  | declaration {x l type name a b} (value : Expr.Rewrites x a b) :
      Stmt.Rewrites x (.declaration l type name (some a)) (.declaration l type name (some b))
  | assignment {x l name a b} (value : Expr.Rewrites x a b) :
      Stmt.Rewrites x (.assignment l name a) (.assignment l name b)
  | expression {x l a b} (value : Expr.Rewrites x a b) : Stmt.Rewrites x (.expression l a)
    (.expression l b)
  | when {x l a b s t} (condition : Expr.Rewrites x a b)
      (body : Stmt.Rewrites (x.enter false) s t) :
      Stmt.Rewrites x (.conditional l a s none) (.conditional l b t none)
  | either {x l a b s s' t t'} (condition : Expr.Rewrites x a b)
      (thenBranch : Stmt.Rewrites (x.enter false) s t)
      (elseBranch : Stmt.Rewrites (x.enter false) s' t') :
      Stmt.Rewrites x (.conditional l a s (some s')) (.conditional l b t (some t'))
  | loop {x l a b s t} (condition : Expr.Rewrites x a b) (body : Stmt.Rewrites (x.enter true) s t) :
      Stmt.Rewrites x (.loop l a s) (.loop l b t)
  | return {x l a b} (value : Expr.Rewrites x a b) : Stmt.Rewrites x (.return l (some a))
    (.return l (some b))
  | block {x l ss ts} (body : Stmt.RewritesAll (x.enter false) ss ts) : Stmt.Rewrites x
    (.block l ss) (.block l ts)

/-- Statements of one scope, each behind the declarations of those before it. -/
inductive Stmt.RewritesAll : Lexical → List Stmt → List Stmt → Prop
  | nil {x} : Stmt.RewritesAll x [] []
  | cons {x s t ss ts} (first : Stmt.Rewrites x s t)
      (rest : Stmt.RewritesAll (x.declare s.declared) ss ts) :
      Stmt.RewritesAll x (s :: ss) (t :: ts)

end

/-- What is known at the first statement of a function, with the functions before it. -/
def FunctionDef.inside (f : FunctionDef) (before : Declarations) : Lexical :=
  { scope := (f.parameters.map Parameter.entry).reverse, around := [f.declaration :: before]
    inLoop := false, returnType := .ofName f.returnType }

/-- One step of rewriting in the bodies of functions, with the functions before them. -/
inductive FunctionDef.RewritesAll : Declarations → List FunctionDef → List FunctionDef → Prop
  | nil {before} : RewritesAll before [] []
  | cons {before f body fs gs} (first : Stmt.RewritesAll (f.inside before) f.body body)
      (rest : RewritesAll (f.declaration :: before) fs gs) :
      RewritesAll before (f :: fs) ({ f with body := body } :: gs)

/-- One step of rewriting in a program. -/
def Program.Rewrites (p q : Program) : Prop :=
  FunctionDef.RewritesAll runtimeDeclarations p.functions q.functions

/-- Any number of steps. -/
abbrev Program.RewritesTo : Program → Program → Prop := Relation.ReflTransGen Program.Rewrites

end Backpatch
