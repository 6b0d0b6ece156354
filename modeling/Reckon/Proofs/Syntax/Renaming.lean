import Reckon.Syntax.Prototype

/-!
# Renaming what a binder binds

A name is bound by a parameter, by a loop or by a list of new names.  A loop binds its name in
its end, its step and its body, but not in its first value.  A new name is bound in the
initial values after its own and in the body.  Either binds up to where the same name is
bound again.

`Expr.rename` replaces the free occurrences of names, and `Function.RenamesBinder` says that
a function is another one with the name of one binder changed everywhere it binds.
-/

namespace Reckon

/-- What free names become. -/
abbrev Renaming := String → String

namespace Renaming

/-- One name becomes another. -/
def single (old new : String) : Renaming := fun name => if name = old then new else name

/-- A renaming where a name has been bound: there the name stays what it is. -/
def past (r : Renaming) (bound : String) : Renaming := fun name =>
  if name = bound then name else r name

/-- A renaming where some names have been bound. -/
def pastAll (r : Renaming) (names : List String) : Renaming := names.foldl past r

end Renaming

namespace Expr

mutual

/-- Rename the names that occur free in an expression. -/
def rename (r : Renaming) : Expr → Expr
  | number value => number value
  | var name => var (r name)
  | unary op operand => unary op (operand.rename r)
  | binary op left right => binary op (left.rename r) (right.rename r)
  | call name args => call name (renameIn r args)
  | cond condition thenBranch elseBranch =>
    cond (condition.rename r) (thenBranch.rename r) (elseBranch.rename r)
  | loop name start finish step body =>
    loop name (start.rename r) (finish.rename (r.past name)) (renameIf (r.past name) step)
      (body.rename (r.past name))
  | locals bindings body =>
    locals (renameBound r bindings) (body.rename (r.pastAll (bindings.map Prod.fst)))

/-- Rename the names that occur free in some arguments. -/
def renameIn (r : Renaming) : List Expr → List Expr
  | [] => []
  | arg :: args => arg.rename r :: renameIn r args

/-- Rename the names that occur free in an expression that may be missing. -/
def renameIf (r : Renaming) : Option Expr → Option Expr
  | none => none
  | some e => some (e.rename r)

/-- Rename the names that occur free in the initial values of new names, each of which sees
the names before it. -/
def renameBound (r : Renaming) : List (String × Option Expr) → List (String × Option Expr)
  | [] => []
  | (name, value) :: bindings => (name, renameIf r value) :: renameBound (r.past name) bindings

end

mutual

/-- The names of the variables of an expression, where they are bound and where they are
used.  A function may have the name of a variable, so callees do not count. -/
def names : Expr → List String
  | number _ => []
  | var name => [name]
  | unary _ operand => operand.names
  | binary _ left right => left.names ++ right.names
  | call _ args => namesIn args
  | cond condition thenBranch elseBranch =>
    condition.names ++ (thenBranch.names ++ elseBranch.names)
  | loop name start finish step body =>
    name :: (start.names ++ (finish.names ++ (namesIf step ++ body.names)))
  | locals bindings body => namesBound bindings ++ body.names

/-- The names of the variables of some arguments. -/
def namesIn : List Expr → List String
  | [] => []
  | arg :: args => arg.names ++ namesIn args

/-- The names of the variables of an expression that may be missing. -/
def namesIf : Option Expr → List String
  | none => []
  | some e => e.names

/-- New names and the names of the variables of their initial values. -/
def namesBound : List (String × Option Expr) → List String
  | [] => []
  | (name, value) :: bindings => name :: (namesIf value ++ namesBound bindings)

end

/-- The name of one loop or of one new name in an expression is changed, together with
exactly the occurrences that it binds. -/
inductive RenamesBinder (new : String) : Expr → Expr → Prop
  | ofLoop (name : String) (start finish : Expr) (step : Option Expr) (body : Expr) :
      RenamesBinder new (.loop name start finish step body)
        (.loop new start (finish.rename (.single name new))
          (renameIf (.single name new) step) (body.rename (.single name new)))
  | ofLocal (before : List (String × Option Expr)) (name : String) (value : Option Expr)
      (after : List (String × Option Expr)) (body : Expr) :
      RenamesBinder new (.locals (before ++ (name, value) :: after) body)
        (.locals (before ++ (new, value) :: renameBound (.single name new) after)
          (body.rename ((Renaming.single name new).pastAll (after.map Prod.fst))))
  | unary {op operand operand'} (h : RenamesBinder new operand operand') :
      RenamesBinder new (.unary op operand) (.unary op operand')
  | left {op left left' right} (h : RenamesBinder new left left') :
      RenamesBinder new (.binary op left right) (.binary op left' right)
  | right {op left right right'} (h : RenamesBinder new right right') :
      RenamesBinder new (.binary op left right) (.binary op left right')
  | argument {name arg arg'} (before after : List Expr) (h : RenamesBinder new arg arg') :
      RenamesBinder new (.call name (before ++ arg :: after)) (.call name (before ++ arg' :: after))
  | condition {condition condition' thenBranch elseBranch}
      (h : RenamesBinder new condition condition') :
      RenamesBinder new (.cond condition thenBranch elseBranch)
        (.cond condition' thenBranch elseBranch)
  | thenBranch {condition thenBranch thenBranch' elseBranch}
      (h : RenamesBinder new thenBranch thenBranch') :
      RenamesBinder new (.cond condition thenBranch elseBranch)
        (.cond condition thenBranch' elseBranch)
  | elseBranch {condition thenBranch elseBranch elseBranch'}
      (h : RenamesBinder new elseBranch elseBranch') :
      RenamesBinder new (.cond condition thenBranch elseBranch)
        (.cond condition thenBranch elseBranch')
  | start {name start start' finish step body} (h : RenamesBinder new start start') :
      RenamesBinder new (.loop name start finish step body) (.loop name start' finish step body)
  | finish {name start finish finish' step body} (h : RenamesBinder new finish finish') :
      RenamesBinder new (.loop name start finish step body) (.loop name start finish' step body)
  | step {name start finish step step' body} (h : RenamesBinder new step step') :
      RenamesBinder new (.loop name start finish (some step) body)
        (.loop name start finish (some step') body)
  | loopBody {name start finish step body body'} (h : RenamesBinder new body body') :
      RenamesBinder new (.loop name start finish step body) (.loop name start finish step body')
  | initial {name value value' body} (before after : List (String × Option Expr))
      (h : RenamesBinder new value value') :
      RenamesBinder new (.locals (before ++ (name, some value) :: after) body)
        (.locals (before ++ (name, some value') :: after) body)
  | localsBody {bindings body body'} (h : RenamesBinder new body body') :
      RenamesBinder new (.locals bindings body) (.locals bindings body')

@[simp] theorem length_renameIn (r : Renaming) (args : List Expr) :
    (renameIn r args).length = args.length := by
  induction args with
  | nil => rfl
  | cons arg args ih => simp [renameIn, ih]

theorem namesIn_append (before after : List Expr) :
    namesIn (before ++ after) = namesIn before ++ namesIn after := by
  induction before with
  | nil => rfl
  | cons arg before ih => simp [namesIn, ih]

theorem namesBound_append (before after : List (String × Option Expr)) :
    namesBound (before ++ after) = namesBound before ++ namesBound after := by
  induction before with
  | nil => rfl
  | cons binding before ih => simp [namesBound, ih]

end Expr

namespace Function

/-- The names of the parameters of a function and of the variables of its body. -/
def names (f : Function) : List String := f.prototype.params ++ f.body.names

/-- The name of one parameter, of one loop or of one new name of a function is changed,
together with exactly the occurrences that it binds. -/
inductive RenamesBinder (new : String) : Function → Function → Prop
  | ofParameter (name : String) (kind : PrototypeKind) (before : List String) (param : String)
      (after : List String) (body : Expr) :
      RenamesBinder new ⟨⟨name, before ++ param :: after, kind⟩, body⟩
        ⟨⟨name, before ++ new :: after, kind⟩,
          body.rename ((Renaming.single param new).pastAll after)⟩
  | inBody {prototype body body'} (h : Expr.RenamesBinder new body body') :
      RenamesBinder new ⟨prototype, body⟩ ⟨prototype, body'⟩

end Function

end Reckon
