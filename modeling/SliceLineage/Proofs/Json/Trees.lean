import Mathlib
import SliceLineage.Json.Source

/-!
# Source trees survive their JSON form

Reading back the JSON value of a tree gives the tree, whatever its shape: a decoder finds each
member that the encoder wrote, absent parts are told from present ones because no tree is written
as null, and lists are read element by element.

* `Json.get?_eq_bind`, `Json.getOpt?_eq`, `Json.items?_arr`: the accessors without the
  proofs that they hand on for recursion.
* `Expr.ofJson?_toJson`, `Stmt.ofJson?_toJson`, `FunctionDecl.ofJson?_toJson`: the round trips.
-/

namespace SliceLineage

/-! ## Accessors -/

namespace Json

variable {α : Type}

@[simp]
theorem member?_obj (members : List (String × Json)) (name : String) :
    (obj members).member? name = members.lookup name := rfl

@[simp]
theorem get?_eq_bind (j : Json) (name : String) (decode : Json → Option α) :
    (j.get? name fun k _ => decode k) = (j.member? name).bind decode := by
  unfold get?
  split <;> simp_all

/-- An absent member is read as null is. -/
@[simp]
theorem getOpt?_eq (j : Json) (name : String) (decode : Json → Option α) :
    (j.getOpt? name fun k _ => decode k) = (j.memberD name null).ofNullable? decode := by
  unfold getOpt? memberD
  split
  · simp_all [ofNullable?]
  · simp_all [ofNullable?]
  · rename_i k hk h
    simp only [h, Option.getD_some]
    cases k <;> simp_all [ofNullable?]

@[simp]
theorem memberD_obj (members : List (String × Json)) (name : String) (default : Json) :
    (obj members).memberD name default = (members.lookup name).getD default := rfl

@[simp]
theorem getD?_eq (j : Json) (name : String) (default : α) (decode : Json → Option α) :
    j.getD? name default decode = ((j.member? name).map decode).getD (some default) := by
  unfold getD?
  split <;> simp_all

@[simp]
theorem items?_arr (items : List Json) (decode : Json → Option α) :
    ((arr items).items? fun k _ => decode k) = items.mapM decode := by
  simp [items?]

@[simp]
theorem items?_list {β : Type} (encode : β → Json) (items : List β) (decode : Json → Option α) :
    ((list encode items).items? fun k _ => decode k) = items.mapM fun a => decode (encode a) := by
  simp [list, Function.comp_def]

theorem pair?_arr {a b : Json} {x y : α} {decode : Json → Option α} (ha : decode a = some x)
    (hb : decode b = some y) : ((arr [a, b]).pair? fun k _ => decode k) = some (x, y) := by
  simp [pair?, ha, hb]

@[simp]
theorem string?_str (s : String) : (str s).string? = some s := rfl

@[simp]
theorem bool?_bool (b : Bool) : (bool b).bool? = some b := rfl

/-- Elementwise round trips are what the round trip of a list amounts to. -/
theorem mapM_eq_some_self_iff {trip : α → Option α} {items : List α} :
    items.mapM trip = some items ↔ ∀ a ∈ items, trip a = some a := by
  induction items with
  | nil => simp
  | cons a items ih =>
      simp only [List.mapM_cons, Option.pure_def, Option.bind_eq_bind, Option.bind_eq_some_iff,
        Option.some.injEq, List.cons.injEq, List.mem_cons, forall_eq_or_imp, ← ih]
      grind

@[simp]
theorem strings?_list (names : List String) : (list str names).strings? = some names := by
  simp [strings?, mapM_eq_some_self_iff]

theorem ofNullable?_opt_str (name : Option String) :
    (opt str name).ofNullable? string? = some name := by
  cases name <;> rfl

theorem natBelow?_nat (bound n : Nat) :
    (nat n).natBelow? bound = if n < bound then some n else none := by
  simp [nat, natBelow?]

@[simp]
theorem word32?_nat (w : UInt32) : (nat w.toNat).word32? = some w := by
  simp [word32?, natBelow?_nat, w.toNat_lt]

@[simp]
theorem word64?_nat (w : UInt64) : (nat w.toNat).word64? = some w := by
  simp [word64?, natBelow?_nat, w.toNat_lt]

end Json

@[simp]
theorem Span.ofJson?_toJson (s : Span) : Span.ofJson? s.toJson = some s := by
  simp [ofJson?, toJson, List.lookup]

@[simp]
theorem Json.get?_span_node (kind : Json) (span : Span) :
    ((node kind span).get? "span" fun k _ => Span.ofJson? k) = some span := by
  simp [node, List.lookup]

@[simp]
theorem CompositeKind.ofName?_name (k : CompositeKind) : ofName? k.name = some k := by
  cases k <;> rfl

@[simp]
theorem SkippedKind.ofName?_name (k : SkippedKind) : ofName? k.name = some k := by
  cases k <;> rfl

/-! ## Expressions -/

namespace Expr

/-- A node with parts is read as its parts with its span. -/
theorem ofJson?_variant (name : String) (parts : Json) (span : Span) :
    ofJson? (.node (.variant name parts) span) = ofParts? span name parts := by
  rw [ofJson?, Json.get?_span_node]
  rfl

theorem ofJson?_plain (name : String) (span : Span) :
    ofJson? (.node (.str name) span) = ofName? span name := by
  rw [ofJson?, Json.get?_span_node]
  rfl

/-- No expression is written as null, so that null can stand for an absent one. -/
theorem ofNullable?_toJson (e : Expr) (decode : Json → Option Expr) :
    e.toJson.ofNullable? decode = (decode e.toJson).map some := by
  cases e <;> simp [toJson, Json.node, Json.ofNullable?]

end Expr

mutual

theorem Expr.ofJson?_toJson : ∀ e : Expr, Expr.ofJson? e.toJson = some e
  | .ident name span => by
      rw [Expr.toJson, Expr.ofJson?_variant]
      simp [Expr.ofParts?]
  | .paren inner span => by
      rw [Expr.toJson, Expr.ofJson?_variant]
      simp [Expr.ofParts?, Expr.ofJson?_toJson inner]
  | .select operand field span => by
      rw [Expr.toJson, Expr.ofJson?_variant]
      simp [Expr.ofParts?, List.lookup, Expr.ofJson?_toJson operand]
  | .call callee args span => by
      rw [Expr.toJson, Expr.ofJson?_variant]
      simp [Expr.ofParts?, List.lookup, Expr.ofJson?_toJson callee, mapM_exprsToJson args]
  | .slice operand low high max span => by
      rw [Expr.toJson, Expr.ofJson?_variant]
      simp [Expr.ofParts?, List.lookup, Expr.ofJson?_toJson operand, ofNullable?_exprToJson? low,
        ofNullable?_exprToJson? high, ofNullable?_exprToJson? max]
  | .composite kind elements span => by
      rw [Expr.toJson, Expr.ofJson?_variant]
      simp [Expr.ofParts?, List.lookup, mapM_elementsToJson elements]
  | .unary operand span => by
      rw [Expr.toJson, Expr.ofJson?_variant]
      simp [Expr.ofParts?, Expr.ofJson?_toJson operand]
  | .binary left right span => by
      rw [Expr.toJson, Expr.ofJson?_variant]
      simp [Expr.ofParts?,
        Json.pair?_arr (Expr.ofJson?_toJson left) (Expr.ofJson?_toJson right)]
  | .index operand position span => by
      rw [Expr.toJson, Expr.ofJson?_variant]
      simp [Expr.ofParts?, List.lookup, Expr.ofJson?_toJson operand, Expr.ofJson?_toJson position]
  | .typeAssert operand span => by
      rw [Expr.toJson, Expr.ofJson?_variant]
      simp [Expr.ofParts?, Expr.ofJson?_toJson operand]
  | .literal span => by rw [Expr.toJson, Expr.ofJson?_plain, Expr.ofName?]
  | .funcLit span => by rw [Expr.toJson, Expr.ofJson?_plain, Expr.ofName?]
  | .other span => by rw [Expr.toJson, Expr.ofJson?_plain, Expr.ofName?]
  | .bad span => by rw [Expr.toJson, Expr.ofJson?_plain, Expr.ofName?]

theorem mapM_exprsToJson : ∀ es : List Expr, (exprsToJson es).mapM Expr.ofJson? = some es
  | [] => rfl
  | e :: es => by simp [exprsToJson, Expr.ofJson?_toJson e, mapM_exprsToJson es]

theorem ofNullable?_exprToJson? : ∀ e : Option Expr,
    (exprToJson? e).ofNullable? Expr.ofJson? = some e
  | none => rfl
  | some e => by rw [exprToJson?, Expr.ofNullable?_toJson, Expr.ofJson?_toJson e]; rfl

theorem mapM_elementsToJson : ∀ es : List Element,
    (elementsToJson es).mapM (fun k =>
      ((k.memberD "key" .null).ofNullable? Json.string?).bind fun key =>
        ((k.member? "value").bind Expr.ofJson?).bind fun value => some (Element.mk key value))
      = some es
  | [] => rfl
  | ⟨key, value⟩ :: es => by
      simp [elementsToJson, List.lookup, Json.ofNullable?_opt_str, Expr.ofJson?_toJson value,
        mapM_elementsToJson es]

end

@[simp]
theorem Json.exprs?_arr (es : List Expr) : (arr (exprsToJson es)).exprs? = some es := by
  rw [exprs?, items?_arr, mapM_exprsToJson]

/-! ## Statements -/

namespace Stmt

theorem ofJson?_variant (name : String) (parts : Json) (span : Span) :
    ofJson? (.node (.variant name parts) span) = ofParts? span name parts := by
  rw [ofJson?, Json.get?_span_node]
  rfl

theorem ofNullable?_toJson (s : Stmt) (decode : Json → Option Stmt) :
    s.toJson.ofNullable? decode = (decode s.toJson).map some := by
  cases s <;> simp [toJson, Json.node, Json.ofNullable?]

end Stmt

mutual

theorem Stmt.ofJson?_toJson : ∀ s : Stmt, Stmt.ofJson? s.toJson = some s
  | .block body span => by
      rw [Stmt.toJson, Stmt.ofJson?_variant]
      simp [Stmt.ofParts?, Block.ofJson?_toJson body]
  | .labeled label stmt span => by
      rw [Stmt.toJson, Stmt.ofJson?_variant]
      simp [Stmt.ofParts?, List.lookup, Stmt.ofJson?_toJson stmt]
  | .ifElse init cond thenBlock elseBranch span => by
      rw [Stmt.toJson, Stmt.ofJson?_variant]
      simp [Stmt.ofParts?, List.lookup, ofNullable?_stmtToJson? init, Expr.ofJson?_toJson cond,
        Block.ofJson?_toJson thenBlock, ofNullable?_stmtToJson? elseBranch]
  | .forLoop init cond post body span => by
      rw [Stmt.toJson, Stmt.ofJson?_variant]
      simp [Stmt.ofParts?, List.lookup, ofNullable?_stmtToJson? init, ofNullable?_exprToJson? cond,
        ofNullable?_stmtToJson? post, Block.ofJson?_toJson body]
  | .range key value define subject body span => by
      rw [Stmt.toJson, Stmt.ofJson?_variant]
      simp [Stmt.ofParts?, List.lookup, ofNullable?_exprToJson? key, ofNullable?_exprToJson? value,
        Expr.ofJson?_toJson subject, Block.ofJson?_toJson body]
  | .define names values span => by
      rw [Stmt.toJson, Stmt.ofJson?_variant]
      simp [Stmt.ofParts?, List.lookup]
  | .assign targets values span => by
      rw [Stmt.toJson, Stmt.ofJson?_variant]
      simp [Stmt.ofParts?, List.lookup]
  | .switch init tag clauses span => by
      rw [Stmt.toJson, Stmt.ofJson?_variant]
      simp [Stmt.ofParts?, List.lookup, ofNullable?_stmtToJson? init, ofNullable?_exprToJson? tag,
        mapM_clausesToJson clauses]
  | .typeSwitch init binding subject clauses span => by
      rw [Stmt.toJson, Stmt.ofJson?_variant]
      simp [Stmt.ofParts?, List.lookup, ofNullable?_stmtToJson? init, Json.ofNullable?_opt_str,
        Expr.ofJson?_toJson subject, mapM_clausesToJson clauses]
  | .ret results span => by
      rw [Stmt.toJson, Stmt.ofJson?_variant]
      simp [Stmt.ofParts?]
  | .expr e span => by
      rw [Stmt.toJson, Stmt.ofJson?_variant]
      simp [Stmt.ofParts?, Expr.ofJson?_toJson e]
  | .skipped kind span => by
      rw [Stmt.toJson, Stmt.ofJson?_variant]
      simp [Stmt.ofParts?]
  | .bad span => by
      rw [Stmt.toJson, Stmt.ofJson?, Json.get?_span_node]
      rfl

theorem Block.ofJson?_toJson : ∀ b : Block, Block.ofJson? b.toJson = some b
  | ⟨stmts, span⟩ => by
      rw [Block.toJson, Block.ofJson?]
      simp [List.lookup, mapM_stmtsToJson stmts]

theorem CaseClause.ofJson?_toJson : ∀ c : CaseClause, CaseClause.ofJson? c.toJson = some c
  | ⟨exprs, body, span⟩ => by
      rw [CaseClause.toJson, CaseClause.ofJson?]
      simp [List.lookup, mapM_stmtsToJson body]

theorem mapM_stmtsToJson : ∀ ss : List Stmt, (stmtsToJson ss).mapM Stmt.ofJson? = some ss
  | [] => rfl
  | s :: ss => by simp [stmtsToJson, Stmt.ofJson?_toJson s, mapM_stmtsToJson ss]

theorem ofNullable?_stmtToJson? : ∀ s : Option Stmt,
    (stmtToJson? s).ofNullable? Stmt.ofJson? = some s
  | none => rfl
  | some s => by rw [stmtToJson?, Stmt.ofNullable?_toJson, Stmt.ofJson?_toJson s]; rfl

theorem mapM_clausesToJson : ∀ cs : List CaseClause,
    (clausesToJson cs).mapM CaseClause.ofJson? = some cs
  | [] => rfl
  | c :: cs => by simp [clausesToJson, CaseClause.ofJson?_toJson c, mapM_clausesToJson cs]

end

theorem FunctionDecl.ofJson?_toJson (f : FunctionDecl) :
    FunctionDecl.ofJson? f.toJson = some f := by
  have hresults : f.results.mapM (fun r => (Json.opt .str r).ofNullable? Json.string?)
      = some f.results :=
    Json.mapM_eq_some_self_iff.mpr fun r _ => Json.ofNullable?_opt_str r
  simp [toJson, ofJson?, List.lookup, Block.ofJson?_toJson, hresults]

end SliceLineage
