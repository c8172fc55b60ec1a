import Backpatch.Tree.Builder

/-!
# Trees of programs

Checks a program from first to last and builds its tree. Parts are built before the whole that they
belong to, so the first error in the order of the source is the one that is reported. A condition
is checked before the code that it guards is looked at. Branches, loop bodies and blocks have
scopes of their own.
-/

namespace Backpatch

mutual

def Expr.build : Expr → BuildM Node
  | .literal l value => Builder.literal value l
  | .identifier l name => Builder.identifier name l
  | .call l name arguments => do
    let arguments ← Expr.buildAll arguments
    Builder.call name arguments l
  | .not l operand => do
    let operand ← operand.build
    Builder.not operand l
  | .and l left right => do
    let left ← left.build
    let right ← right.build
    Builder.and left right l
  | .or l left right => do
    let left ← left.build
    let right ← right.build
    Builder.or left right l
  | .arithmetic l operator left right => do
    let left ← left.build
    let right ← right.build
    Builder.arithmetic operator left right l
  | .comparison l operator left right => do
    let left ← left.build
    let right ← right.build
    Builder.comparison operator left right l
  | .cast l target operand => do
    let operand ← operand.build
    Builder.cast (Ty.ofName target) operand l
  | .conditional l condition thenValue elseValue => do
    let condition ← condition.build
    Builder.checkCondition condition
    let thenValue ← thenValue.build
    let elseValue ← elseValue.build
    Builder.conditional condition thenValue elseValue l

def Expr.buildAll : List Expr → BuildM (List Node)
  | [] => return []
  | e :: es => do
    let node ← e.build
    let nodes ← Expr.buildAll es
    return node :: nodes

end

/-- Builds an expression that may be missing. -/
def Expr.buildOption : Option Expr → BuildM (Option Node)
  | none => return none
  | some e => return some (← e.build)

mutual

def Stmt.build : Stmt → BuildM Node
  | .declaration l type name initializer => do
    let initializer ← Expr.buildOption initializer
    Builder.declaration (Ty.ofName type) name initializer l
  | .assignment l name value => do
    let value ← value.build
    Builder.assignment name value l
  | .expression l value => do
    let value ← value.build
    Builder.expressionStatement value l
  | .conditional l condition thenBranch elseBranch => do
    let condition ← condition.build
    Builder.checkCondition condition
    Builder.openScope false
    let thenBranch ← thenBranch.build
    Builder.closeScope
    let elseBranch ← Stmt.buildElse elseBranch
    Builder.ifStatement condition thenBranch elseBranch l
  | .loop l condition body => do
    let condition ← condition.build
    Builder.checkCondition condition
    Builder.openScope true
    let body ← body.build
    Builder.closeScope
    Builder.whileStatement condition body l
  | .break l => Builder.breakStatement l
  | .continue l => Builder.continueStatement l
  | .return l value => do
    let value ← Expr.buildOption value
    Builder.returnStatement value l
  | .block l body => do
    Builder.openScope false
    let body ← Stmt.buildAll body
    Builder.closeScope
    Builder.block body l

def Stmt.buildElse : Option Stmt → BuildM (Option Node)
  | none => return none
  | some branch => do
    Builder.openScope false
    let branch ← branch.build
    Builder.closeScope
    return some branch

def Stmt.buildAll : List Stmt → BuildM (List Node)
  | [] => return []
  | s :: ss => do
    let node ← s.build
    let nodes ← Stmt.buildAll ss
    return node :: nodes

end

def Parameter.formal (p : Parameter) : Builder.Formal :=
  { type := Ty.ofName p.type, name := p.name, location := p.location }

def FunctionDef.build (f : FunctionDef) : BuildM Node := do
  Builder.beginFunction f.name (Ty.ofName f.returnType)
    (f.parameters.map Parameter.formal) f.location
  let statements ← Stmt.buildAll f.body
  let body ← Builder.block statements f.location
  Builder.endFunction body f.location

def FunctionDef.buildAll : List FunctionDef → BuildM (List Node)
  | [] => return []
  | f :: fs => do
    let node ← f.build
    let nodes ← FunctionDef.buildAll fs
    return node :: nodes

/-- Builds the root of a program. -/
def Program.build (p : Program) : BuildM Node := do
  let functions ← FunctionDef.buildAll p.functions
  Builder.finish functions

end Backpatch
