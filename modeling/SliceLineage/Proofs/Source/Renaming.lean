import SliceLineage.Scope
import SliceLineage.Source.Stmt

/-!
# Declarations and the identifiers that refer to them

Which declaration an identifier refers to can be read off the tree of a function: declarations are
seen after the place where they stand, up to the end of the innermost frame around them, unless a
later one of the same name hides them. Frames are those of the function, of every block, of an if
statement with all arms of its chain, of a loop, of a switch and of each of its clauses.

* `Names`: the declarations that are seen at some place, and what came before it.
* `Stmt.scan`: the names after a statement; `FunctionDecl.declared`, `FunctionDecl.used`: all
  declarations of a function, and all its identifiers with the declarations they refer to.
* `FunctionDecl.rename`: another name for one declaration and for all that refers to it.
* `Names.Grows`: scanning forgets nothing that came before.
-/

namespace SliceLineage

namespace Expr

mutual

/-- The identifiers in an expression, from left to right. Callees count; selected fields and the
keys of literals do not. -/
def names : Expr → List String
  | ident name _ => [name]
  | paren inner _ => inner.names
  | select operand _ _ => operand.names
  | call callee args _ => callee.names ++ namesOfEach args
  | slice operand low high max _ =>
      operand.names ++ namesIfAny low ++ namesIfAny high ++ namesIfAny max
  | composite _ elements _ => namesOfElements elements
  | unary operand _ => operand.names
  | binary left right _ => left.names ++ right.names
  | index operand position _ => operand.names ++ position.names
  | typeAssert operand _ => operand.names
  | literal _ => []
  | funcLit _ => []
  | other _ => []
  | bad _ => []

def namesOfEach : List Expr → List String
  | [] => []
  | e :: es => e.names ++ namesOfEach es

def namesIfAny : Option Expr → List String
  | none => []
  | some e => e.names

def namesOfElements : List Element → List String
  | [] => []
  | ⟨_, value⟩ :: es => value.names ++ namesOfElements es

end

mutual

/-- The expression with other identifiers. -/
def mapNames (f : String → String) : Expr → Expr
  | ident name span => ident (f name) span
  | paren inner span => paren (inner.mapNames f) span
  | select operand field span => select (operand.mapNames f) field span
  | call callee args span => call (callee.mapNames f) (mapNamesOfEach f args) span
  | slice operand low high max span =>
      slice (operand.mapNames f) (mapNamesIfAny f low) (mapNamesIfAny f high)
        (mapNamesIfAny f max) span
  | composite kind elements span => composite kind (mapNamesOfElements f elements) span
  | unary operand span => unary (operand.mapNames f) span
  | binary left right span => binary (left.mapNames f) (right.mapNames f) span
  | index operand position span => index (operand.mapNames f) (position.mapNames f) span
  | typeAssert operand span => typeAssert (operand.mapNames f) span
  | literal span => literal span
  | funcLit span => funcLit span
  | other span => other span
  | bad span => bad span

def mapNamesOfEach (f : String → String) : List Expr → List Expr
  | [] => []
  | e :: es => e.mapNames f :: mapNamesOfEach f es

def mapNamesIfAny (f : String → String) : Option Expr → Option Expr
  | none => none
  | some e => some (e.mapNames f)

def mapNamesOfElements (f : String → String) : List Element → List Element
  | [] => []
  | ⟨key, value⟩ :: es => ⟨key, value.mapNames f⟩ :: mapNamesOfElements f es

end

/-- The name that a loop variable of a range statement declares, if the statement defines it. -/
def defined? (define : Bool) (e : Expr) : Option String := if define then e.name? else none

end Expr

/-- What is known about names at some place of a function. Declarations are counted from the
beginning of the function; the blank name is never declared. -/
structure Names where
  /-- The declarations that are seen, newest first. -/
  visible : List (String × Nat)
  /-- The names of all declarations so far. -/
  declared : List String
  /-- The identifiers so far, with the declarations that they refer to. -/
  used : List (String × Option Nat)

namespace Names

/-- The names at the beginning of a function. -/
def empty : Names := ⟨[], [], []⟩

/-- The declaration that an identifier refers to. -/
def resolve (ns : Names) (name : String) : Option Nat := ns.visible.lookup name

/-- The declaration that a name would be. -/
def next? (ns : Names) (name : String) : Option (String × Nat) :=
  if name = Scopes.blankName then none else some (name, ns.declared.length)

/-- Counts a declaration that is not seen yet. -/
def record (ns : Names) (d : Option (String × Nat)) : Names :=
  { ns with declared := ns.declared ++ (d.map Prod.fst).toList }

/-- Makes a declaration visible. -/
def bring (ns : Names) (d : Option (String × Nat)) : Names :=
  { ns with visible := d.toList ++ ns.visible }

/-- Declares a name from here on. -/
def declare (ns : Names) (name : String) : Names :=
  (ns.record (ns.next? name)).bring (ns.next? name)

/-- Declares several names, in order. -/
def declareAll (ns : Names) (names : List String) : Names := names.foldl declare ns

/-- Resolves the identifiers of some expressions. -/
def use (ns : Names) (es : List Expr) : Names :=
  { ns with used := ns.used ++ (es.flatMap Expr.names).map fun name => (name, ns.resolve name) }

/-- The end of a frame: what was seen at its beginning is seen again. -/
def leave (ns outer : Names) : Names := { ns with visible := outer.visible }

/-- The loop variable of a range statement. -/
def rangeVariable (ns : Names) (define : Bool) : Option Expr → Names
  | none => ns
  | some e =>
      match e.defined? define with
      | some name => ns.declare name
      | none => ns.use [e]

end Names

mutual

/-- The names after a statement. -/
def Stmt.scan : Stmt → Names → Names
  | .block body _, ns => body.scan ns
  | .labeled _ stmt _, ns => stmt.scan ns
  | .ifElse init cond thenBlock elseBranch _, ns =>
      (Stmt.scanElse elseBranch (thenBlock.scan ((Stmt.scanIfAny init ns).use [cond]))).leave ns
  | .forLoop init cond post body _, ns =>
      (Stmt.scanIfAny post (body.scan ((Stmt.scanIfAny init ns).use cond.toList))).leave ns
  | .range key value define subject body _, ns =>
      (body.scan (((ns.use [subject]).rangeVariable define key).rangeVariable define value)).leave
        ns
  | .define names values _, ns => (ns.use values).declareAll names
  | .assign targets values _, ns => ns.use (targets ++ values)
  | .switch init tag clauses _, ns =>
      (CaseClause.scanEach none clauses ((Stmt.scanIfAny init ns).use tag.toList)).leave ns
  | .typeSwitch init binding subject clauses _, ns =>
      -- all clauses declare the binding, and it counts as one declaration
      let inner := (Stmt.scanIfAny init ns).use [subject]
      let d := binding.bind inner.next?
      (CaseClause.scanEach d clauses (inner.record d)).leave ns
  | .ret results _, ns => ns.use results
  | .expr e _, ns => ns.use [e]
  | .skipped _ _, ns => ns
  | .bad _, ns => ns

def Stmt.scanEach : List Stmt → Names → Names
  | [], ns => ns
  | s :: rest, ns => Stmt.scanEach rest (s.scan ns)

def Stmt.scanIfAny : Option Stmt → Names → Names
  | none, ns => ns
  | some s, ns => s.scan ns

def Block.scan : Block → Names → Names
  | ⟨stmts, _⟩, ns => (Stmt.scanEach stmts ns).leave ns

/-- The other arms of an if statement, in the frame of the first one. -/
def Stmt.scanElse : Option Stmt → Names → Names
  | none, ns => ns
  | some (.ifElse init cond thenBlock elseBranch _), ns =>
      Stmt.scanElse elseBranch (thenBlock.scan ((Stmt.scanIfAny init ns).use [cond]))
  | some other, ns => other.scan ns

/-- The clauses of a switch; case expressions stand outside the frames of their clauses. -/
def CaseClause.scanEach (d : Option (String × Nat)) : List CaseClause → Names → Names
  | [], ns => ns
  | ⟨exprs, body, _⟩ :: rest, ns =>
      CaseClause.scanEach d rest ((Stmt.scanEach body ((ns.use exprs).bring d)).leave ns)

end

/-- Another name for one declaration. -/
structure Renaming where
  declaration : Nat
  name : String

namespace Renaming

variable (r : Renaming)

/-- The name of a declaration, or of an identifier that refers to it. -/
def apply (declaration : Option Nat) (name : String) : String :=
  if declaration = some r.declaration then r.name else name

/-- An identifier. -/
def identifier (ns : Names) (name : String) : String := r.apply (ns.resolve name) name

/-- The identifiers of an expression. -/
def expr (ns : Names) (e : Expr) : Expr := e.mapNames (r.identifier ns)

/-- A name where it is declared. -/
def binder (ns : Names) (name : String) : String := r.apply ((ns.next? name).map Prod.snd) name

/-- Names that are declared in order. -/
def binders (ns : Names) : List String → List String
  | [] => []
  | name :: names => r.binder ns name :: binders (ns.declare name) names

/-- The results of a function, of which some have names. -/
def results (ns : Names) : List (Option String) → List (Option String)
  | [] => []
  | none :: rest => none :: results ns rest
  | some name :: rest => some (r.binder ns name) :: results (ns.declare name) rest

/-- The loop variable of a range statement. -/
def rangeVariable (ns : Names) (define : Bool) (loopVar : Option Expr) : Option Expr :=
  loopVar.map fun e =>
    match e.defined? define with
    | some _ => e.mapNames (r.binder ns)
    | none => r.expr ns e

end Renaming

mutual

/-- The statement with another name for one declaration, at a place with the given names. -/
def Stmt.rename (r : Renaming) : Stmt → Names → Stmt
  | .block body span, ns => .block (body.rename r ns) span
  | .labeled label stmt span, ns => .labeled label (stmt.rename r ns) span
  | .ifElse init cond thenBlock elseBranch span, ns =>
      let inner := Stmt.scanIfAny init ns
      .ifElse (Stmt.renameIfAny r init ns) (r.expr inner cond)
        (thenBlock.rename r (inner.use [cond]))
        (Stmt.renameIfAny r elseBranch (thenBlock.scan (inner.use [cond]))) span
  | .forLoop init cond post body span, ns =>
      let inner := Stmt.scanIfAny init ns
      .forLoop (Stmt.renameIfAny r init ns) (cond.map (r.expr inner))
        (Stmt.renameIfAny r post (body.scan (inner.use cond.toList)))
        (body.rename r (inner.use cond.toList)) span
  | .range key value define subject body span, ns =>
      let inner := ns.use [subject]
      let keyed := inner.rangeVariable define key
      .range (r.rangeVariable inner define key) (r.rangeVariable keyed define value) define
        (r.expr ns subject) (body.rename r (keyed.rangeVariable define value)) span
  | .define names values span, ns =>
      .define (r.binders (ns.use values) names) (values.map (r.expr ns)) span
  | .assign targets values span, ns =>
      .assign (targets.map (r.expr ns)) (values.map (r.expr ns)) span
  | .switch init tag clauses span, ns =>
      let inner := Stmt.scanIfAny init ns
      .switch (Stmt.renameIfAny r init ns) (tag.map (r.expr inner))
        (CaseClause.renameEach r none clauses (inner.use tag.toList)) span
  | .typeSwitch init binding subject clauses span, ns =>
      let inner := (Stmt.scanIfAny init ns).use [subject]
      let d := binding.bind inner.next?
      .typeSwitch (Stmt.renameIfAny r init ns) (binding.map (r.binder inner))
        (r.expr (Stmt.scanIfAny init ns) subject)
        (CaseClause.renameEach r d clauses (inner.record d)) span
  | .ret results span, ns => .ret (results.map (r.expr ns)) span
  | .expr e span, ns => .expr (r.expr ns e) span
  | .skipped kind span, _ => .skipped kind span
  | .bad span, _ => .bad span

def Stmt.renameEach (r : Renaming) : List Stmt → Names → List Stmt
  | [], _ => []
  | s :: rest, ns => s.rename r ns :: Stmt.renameEach r rest (s.scan ns)

def Stmt.renameIfAny (r : Renaming) : Option Stmt → Names → Option Stmt
  | none, _ => none
  | some s, ns => some (s.rename r ns)

def Block.rename (r : Renaming) : Block → Names → Block
  | ⟨stmts, span⟩, ns => ⟨Stmt.renameEach r stmts ns, span⟩

def CaseClause.renameEach (r : Renaming) (d : Option (String × Nat)) :
    List CaseClause → Names → List CaseClause
  | [], _ => []
  | ⟨exprs, body, span⟩ :: rest, ns =>
      ⟨exprs.map (r.expr ns), Stmt.renameEach r body ((ns.use exprs).bring d), span⟩ ::
        CaseClause.renameEach r d rest
          ((Stmt.scanEach body ((ns.use exprs).bring d)).leave ns)

end

namespace FunctionDecl

variable (f : FunctionDecl)

/-- The names at the beginning of the body. -/
def heading : Names := (Names.empty.declareAll f.params).declareAll (f.results.filterMap id)

/-- The names of all declarations: parameters, named results, definitions, range variables and
bindings of type switches. -/
def declared : List String := (f.body.scan f.heading).declared

/-- All identifiers, with the declarations that they refer to. -/
def used : List (String × Option Nat) := (f.body.scan f.heading).used

/-- All names that occur. -/
def names : List String := f.declared ++ f.used.map Prod.fst

/-- The function with another name for one declaration and for the identifiers that refer to it. -/
def rename (r : Renaming) : FunctionDecl :=
  { f with
    params := r.binders .empty f.params
    results := r.results (Names.empty.declareAll f.params) f.results
    body := f.body.rename r f.heading }

end FunctionDecl

/-! ## Growth -/

namespace Names

/-- The declaration is one of those so far. -/
def Declares (ns : Names) (d : String × Nat) : Prop :=
  ns.declared[d.2]? = some d.1 ∧ d.1 ≠ Scopes.blankName

/-- What is seen has been declared. -/
def Sound (ns : Names) : Prop := ∀ d ∈ ns.visible, ns.Declares d

theorem sound_empty : empty.Sound := fun _ h => absurd h List.not_mem_nil

/-- Nothing that came before is forgotten, and no undeclared name comes into sight. -/
structure Grows (ns ns' : Names) : Prop where
  declared : ns.declared <+: ns'.declared
  used : ns.used <+: ns'.used
  sound : ns.Sound → ns'.Sound

variable {ns ns' ns'' : Names}

theorem Declares.later {d : String × Nat} (h : ns.Declares d)
    (hdeclared : ns.declared <+: ns'.declared) : ns'.Declares d := by
  obtain ⟨rest, hrest⟩ := hdeclared
  obtain ⟨hlt, -⟩ := List.getElem?_eq_some_iff.mp h.1
  exact ⟨by rw [← hrest, List.getElem?_append_left hlt, h.1], h.2⟩

theorem eq_of_next? {name : String} {d : String × Nat} (h : ns.next? name = some d) :
    d = (name, ns.declared.length) ∧ name ≠ Scopes.blankName := by
  unfold next? at h
  split at h
  · cases h
  · rename_i hblank
    exact ⟨(Option.some.inj h).symm, hblank⟩

/-- The next declaration is one of those so far once it is counted. -/
theorem declares_record (ns : Names) (name : String) :
    ∀ d ∈ ns.next? name, (ns.record (ns.next? name)).Declares d := by
  intro d hd
  obtain ⟨rfl, hblank⟩ := eq_of_next? hd
  exact ⟨by simp [record, Option.mem_def.mp hd], hblank⟩

/-- The same for a binding that may be left out. -/
theorem declares_record_bind (ns : Names) (binding : Option String) :
    ∀ d ∈ binding.bind ns.next?, (ns.record (binding.bind ns.next?)).Declares d := by
  cases binding with
  | none => simp
  | some name => exact declares_record ns name

namespace Grows

theorem refl (ns : Names) : ns.Grows ns := ⟨List.prefix_refl _, List.prefix_refl _, id⟩

theorem trans (h : ns.Grows ns') (h' : ns'.Grows ns'') : ns.Grows ns'' :=
  ⟨h.declared.trans h'.declared, h.used.trans h'.used, h'.sound ∘ h.sound⟩

theorem use (ns : Names) (es : List Expr) : ns.Grows (ns.use es) :=
  ⟨List.prefix_refl _, List.prefix_append _ _, id⟩

theorem record (ns : Names) (d : Option (String × Nat)) : ns.Grows (ns.record d) where
  declared := List.prefix_append _ _
  used := List.prefix_refl _
  sound h d hd := (h d hd).later (List.prefix_append _ _)

theorem bring {d : Option (String × Nat)} (hd : ∀ x ∈ d, ns.Declares x) :
    ns.Grows (ns.bring d) where
  declared := List.prefix_refl _
  used := List.prefix_refl _
  sound h x hx := by
    rcases List.mem_append.mp hx with hx | hx
    · exact hd x (Option.mem_toList.mp hx)
    · exact h x hx

theorem declare (ns : Names) (name : String) : ns.Grows (ns.declare name) :=
  (Grows.record ns _).trans (.bring (declares_record ns name))

theorem declareAll (ns : Names) (names : List String) : ns.Grows (ns.declareAll names) := by
  induction names generalizing ns with
  | nil => exact .refl ns
  | cons name names ih => exact (declare ns name).trans (ih (ns.declare name))

theorem leave (h : ns.Grows ns') : ns.Grows (ns'.leave ns) :=
  ⟨h.declared, h.used, fun hs d hd => (hs d hd).later h.declared⟩

theorem rangeVariable (ns : Names) (define : Bool) (e : Option Expr) :
    ns.Grows (ns.rangeVariable define e) := by
  unfold Names.rangeVariable
  split
  · exact .refl ns
  · split
    · exact .declare ns _
    · exact .use ns _

end Grows

end Names

theorem Stmt.scanElse_of_ne {s : Stmt}
    (h : ∀ init cond thenBlock elseBranch span,
      s ≠ .ifElse init cond thenBlock elseBranch span) (ns : Names) :
    Stmt.scanElse (some s) ns = s.scan ns := by
  cases s with
  | ifElse => exact absurd rfl (h _ _ _ _ _)
  | _ =>
      rw [Stmt.scanElse]
      simp

open Names (Grows)

mutual

theorem Stmt.grows_scan : ∀ (s : Stmt) (ns : Names), ns.Grows (s.scan ns)
  | .block body _, ns => by
      rw [Stmt.scan]
      exact Block.grows_scan body ns
  | .labeled _ stmt _, ns => by
      rw [Stmt.scan]
      exact Stmt.grows_scan stmt ns
  | .ifElse init cond thenBlock elseBranch _, ns => by
      rw [Stmt.scan]
      exact ((Stmt.grows_scanIfAny init ns).trans <| (Grows.use _ [cond]).trans <|
        (Block.grows_scan thenBlock _).trans <| Stmt.grows_scanElse elseBranch _).leave
  | .forLoop init cond post body _, ns => by
      rw [Stmt.scan]
      exact ((Stmt.grows_scanIfAny init ns).trans <| (Grows.use _ cond.toList).trans <|
        (Block.grows_scan body _).trans <| Stmt.grows_scanIfAny post _).leave
  | .range key value define subject body _, ns => by
      rw [Stmt.scan]
      exact ((Grows.use ns [subject]).trans <| (Grows.rangeVariable _ define key).trans <|
        (Grows.rangeVariable _ define value).trans <| Block.grows_scan body _).leave
  | .define names values _, ns => by
      rw [Stmt.scan]
      exact (Grows.use ns values).trans (.declareAll _ names)
  | .assign targets values _, ns => by
      rw [Stmt.scan]
      exact .use ns _
  | .switch init tag clauses _, ns => by
      rw [Stmt.scan]
      exact ((Stmt.grows_scanIfAny init ns).trans <| (Grows.use _ tag.toList).trans <|
        CaseClause.grows_scanEach none clauses _ (by simp)).leave
  | .typeSwitch init binding subject clauses _, ns => by
      rw [Stmt.scan]
      exact ((Stmt.grows_scanIfAny init ns).trans <| (Grows.use _ [subject]).trans <|
        (Grows.record _ _).trans <| CaseClause.grows_scanEach _ clauses _ <|
          Names.declares_record_bind _ binding).leave
  | .ret results _, ns => by
      rw [Stmt.scan]
      exact .use ns _
  | .expr e _, ns => by
      rw [Stmt.scan]
      exact .use ns _
  | .skipped _ _, ns => by
      rw [Stmt.scan]
      exact .refl ns
  | .bad _, ns => by
      rw [Stmt.scan]
      exact .refl ns

theorem Stmt.grows_scanEach : ∀ (stmts : List Stmt) (ns : Names),
    ns.Grows (Stmt.scanEach stmts ns)
  | [], ns => by
      rw [Stmt.scanEach]
      exact .refl ns
  | s :: rest, ns => by
      rw [Stmt.scanEach]
      exact (Stmt.grows_scan s ns).trans (Stmt.grows_scanEach rest _)

theorem Stmt.grows_scanIfAny : ∀ (s : Option Stmt) (ns : Names), ns.Grows (Stmt.scanIfAny s ns)
  | none, ns => by
      rw [Stmt.scanIfAny]
      exact .refl ns
  | some s, ns => by
      rw [Stmt.scanIfAny]
      exact Stmt.grows_scan s ns

theorem Block.grows_scan : ∀ (b : Block) (ns : Names), ns.Grows (b.scan ns)
  | ⟨stmts, _⟩, ns => by
      rw [Block.scan]
      exact (Stmt.grows_scanEach stmts ns).leave

theorem Stmt.grows_scanElse : ∀ (s : Option Stmt) (ns : Names), ns.Grows (Stmt.scanElse s ns)
  | none, ns => by
      rw [Stmt.scanElse]
      exact .refl ns
  | some s, ns => by
      cases s with
      | ifElse init cond thenBlock elseBranch span =>
          rw [Stmt.scanElse]
          exact (Stmt.grows_scanIfAny init ns).trans <| (Grows.use _ [cond]).trans <|
            (Block.grows_scan thenBlock _).trans <| Stmt.grows_scanElse elseBranch _
      | _ =>
          rw [Stmt.scanElse_of_ne (by simp)]
          exact Stmt.grows_scan _ ns

theorem CaseClause.grows_scanEach (d : Option (String × Nat)) :
    ∀ (clauses : List CaseClause) (ns : Names), (∀ x ∈ d, ns.Declares x) →
      ns.Grows (CaseClause.scanEach d clauses ns)
  | [], ns, _ => by
      rw [CaseClause.scanEach]
      exact .refl ns
  | ⟨exprs, body, _⟩ :: rest, ns, hd => by
      rw [CaseClause.scanEach]
      have hseen : ∀ x ∈ d, (ns.use exprs).Declares x := hd
      have hbody := ((Grows.use ns exprs).trans <| (Grows.bring hseen).trans <|
        Stmt.grows_scanEach body _).leave
      exact hbody.trans <| CaseClause.grows_scanEach d rest _ fun x hx =>
        (hd x hx).later hbody.declared

end

end SliceLineage
