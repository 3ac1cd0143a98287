import SliceLineage.Proofs.Source.Renaming

/-!
# Renaming keeps what identifiers refer to

Scanning a renamed function gives what renaming gives of the scanned one: one declaration and the
identifiers that refer to it have the new name, and every identifier refers to the same declaration
as before. The new name must not occur in the function, and must not be the blank name.

* `Renaming.Fresh`: the new name does not occur.
* `Renaming.lookup_apply`: no entry of a renamed table captures an identifier.
* `Names.renamed`: the names at the same place of the renamed function; every step of scanning
  agrees with it.
* `FunctionDecl.declared_used_rename`: the result for functions.
-/

namespace SliceLineage

/-! ## Expressions -/

namespace Expr

variable (f : String → String)

mutual

theorem names_mapNames : ∀ e : Expr, (e.mapNames f).names = e.names.map f
  | ident name _ => by rw [mapNames, names, names, List.map_singleton]
  | paren inner _ => by rw [mapNames, names, names, names_mapNames inner]
  | select operand _ _ => by rw [mapNames, names, names, names_mapNames operand]
  | call callee args _ => by
      rw [mapNames, names, names, names_mapNames callee, namesOfEach_mapNames args,
        List.map_append]
  | slice operand low high max _ => by
      rw [mapNames, names, names, names_mapNames operand, namesIfAny_mapNames low,
        namesIfAny_mapNames high, namesIfAny_mapNames max]
      simp only [List.map_append]
  | composite _ elements _ => by rw [mapNames, names, names, namesOfElements_mapNames elements]
  | unary operand _ => by rw [mapNames, names, names, names_mapNames operand]
  | binary left right _ => by
      rw [mapNames, names, names, names_mapNames left, names_mapNames right, List.map_append]
  | index operand position _ => by
      rw [mapNames, names, names, names_mapNames operand, names_mapNames position,
        List.map_append]
  | typeAssert operand _ => by rw [mapNames, names, names, names_mapNames operand]
  | literal _ => by rw [mapNames, names, List.map_nil]
  | funcLit _ => by rw [mapNames, names, List.map_nil]
  | other _ => by rw [mapNames, names, List.map_nil]
  | bad _ => by rw [mapNames, names, List.map_nil]

theorem namesOfEach_mapNames :
    ∀ es : List Expr, namesOfEach (mapNamesOfEach f es) = (namesOfEach es).map f
  | [] => by rw [mapNamesOfEach, namesOfEach, List.map_nil]
  | e :: es => by
      rw [mapNamesOfEach, namesOfEach, namesOfEach, names_mapNames e, namesOfEach_mapNames es,
        List.map_append]

theorem namesIfAny_mapNames :
    ∀ e : Option Expr, namesIfAny (mapNamesIfAny f e) = (namesIfAny e).map f
  | none => by rw [mapNamesIfAny, namesIfAny, List.map_nil]
  | some e => by rw [mapNamesIfAny, namesIfAny, namesIfAny, names_mapNames e]

theorem namesOfElements_mapNames :
    ∀ es : List Element, namesOfElements (mapNamesOfElements f es) = (namesOfElements es).map f
  | [] => by rw [mapNamesOfElements, namesOfElements, List.map_nil]
  | ⟨_, value⟩ :: es => by
      rw [mapNamesOfElements, namesOfElements, namesOfElements, names_mapNames value,
        namesOfElements_mapNames es, List.map_append]

end

theorem namesOfEach_eq_flatMap (es : List Expr) : namesOfEach es = es.flatMap names := by
  induction es with
  | nil => rw [namesOfEach, List.flatMap_nil]
  | cons e es ih => rw [namesOfEach, List.flatMap_cons, ih]

theorem mapNamesOfEach_eq_map (es : List Expr) : mapNamesOfEach f es = es.map (mapNames f) := by
  induction es with
  | nil => rw [mapNamesOfEach, List.map_nil]
  | cons e es ih => rw [mapNamesOfEach, List.map_cons, ih]

theorem span_mapNames (e : Expr) : (e.mapNames f).span = e.span := by
  cases e <;> rw [mapNames] <;> rfl

theorem name?_mapNames : ∀ e : Expr, (e.mapNames f).name? = e.name?.map f
  | paren inner _ => by
      rw [mapNames]
      exact name?_mapNames inner
  | ident .. | select .. | call .. | slice .. | composite .. | unary .. | binary .. | index ..
  | typeAssert .. | literal .. | funcLit .. | other .. | bad .. => by
      rw [mapNames]
      rfl

theorem mem_names_of_name? {name : String} :
    ∀ {e : Expr}, e.name? = some name → name ∈ e.names
  | paren inner _, h => by
      rw [names]
      exact mem_names_of_name? h
  | ident _ _, h => by
      rw [names, Option.some.inj h]
      exact List.mem_singleton_self _
  | select .., h | call .., h | slice .., h | composite .., h | unary .., h | binary .., h
  | index .., h | typeAssert .., h | literal .., h | funcLit .., h | other .., h | bad .., h => by
      cases h

theorem defined?_mapNames (define : Bool) (e : Expr) :
    (e.mapNames f).defined? define = (e.defined? define).map f := by
  unfold defined?
  split
  · exact name?_mapNames f e
  · rfl

end Expr

/-! ## Looking names up -/

namespace Renaming

/-- The new name is none of those so far. -/
structure Fresh (r : Renaming) (ns : Names) : Prop where
  declared : r.name ∉ ns.declared
  used : ∀ u ∈ ns.used, u.1 ≠ r.name

variable {r : Renaming}

theorem Fresh.of_grows {ns ns' : Names} (h : r.Fresh ns') (hns : ns.Grows ns') : r.Fresh ns :=
  ⟨fun hmem => h.declared (hns.declared.mem hmem), fun u hu => h.used u (hns.used.mem hu)⟩

theorem apply_ne_blank (r : Renaming) (hblank : r.name ≠ Scopes.blankName) {name : String}
    (hname : name ≠ Scopes.blankName) (d : Option Nat) : r.apply d name ≠ Scopes.blankName := by
  unfold apply
  split
  · exact hblank
  · exact hname

@[simp]
theorem binder_blank (r : Renaming) (ns : Names) :
    r.binder ns Scopes.blankName = Scopes.blankName := by
  simp [binder, Names.next?, apply]

theorem binder_eq (r : Renaming) (ns : Names) {name : String} (h : name ≠ Scopes.blankName) :
    r.binder ns name = r.apply (some ns.declared.length) name := by
  simp [binder, Names.next?, h]

theorem Fresh.of_leave {ns outer : Names} (h : r.Fresh (ns.leave outer)) : r.Fresh ns :=
  ⟨h.declared, h.used⟩

/-- **In a renamed table the renamed identifier is found where the old one was**, if no entry has
the new name yet and a declaration has only one name. -/
theorem lookup_apply {β γ : Type} (name : β → String) (index : β → Nat) (value : β → γ) {n : String}
    (hn : n ≠ r.name) : ∀ entries : List β,
      (∀ b ∈ entries, name b ≠ r.name) →
      (∀ b ∈ entries, ∀ b' ∈ entries, index b = index b' → name b = name b') →
      (entries.map fun b => (r.apply (some (index b)) (name b), value b)).lookup
          (r.apply ((entries.map fun b => (name b, index b)).lookup n) n) =
        (entries.map fun b => (name b, value b)).lookup n
  | [], _, _ => rfl
  | b :: rest, hnew, hone => by
      have ih := lookup_apply name index value hn rest (fun x hx => hnew x (.tail _ hx))
        fun x hx y hy => hone x (.tail _ hx) y (.tail _ hy)
      by_cases hb : n = name b
      · simp [hb]
      · -- the head has another name before and after renaming
        have hhead : r.apply ((rest.map fun b => (name b, index b)).lookup n) n ≠
            r.apply (some (index b)) (name b) := by
          unfold apply
          split
          · rename_i hk
            obtain ⟨before, after, hsplit, -⟩ := List.lookup_eq_some_iff.mp hk
            have hmem : (n, r.declaration) ∈ rest.map fun b => (name b, index b) := by
              rw [hsplit]
              simp
            obtain ⟨x, hx, heq⟩ := List.mem_map.mp hmem
            obtain ⟨hname, hx'⟩ := Prod.mk.inj heq
            split
            · rename_i hindex
              have hsame := hone x (.tail _ hx) b (.head _)
                (hx'.trans (Option.some.inj hindex).symm)
              exact absurd (hname.symm.trans hsame) hb
            · exact (hnew b (.head _)).symm
          · split
            · exact hn
            · exact hb
        simpa [List.lookup_cons, beq_false_of_ne hb, beq_false_of_ne hhead] using ih

end Renaming

namespace Names

/-- The names at the same place of the renamed function. -/
def renamed (r : Renaming) (ns : Names) : Names where
  visible := ns.visible.map fun d => (r.apply (some d.2) d.1, d.2)
  declared := ns.declared.mapIdx fun i name => r.apply (some i) name
  used := ns.used.map fun u => (r.apply u.2 u.1, u.2)

variable {r : Renaming} {ns : Names}

theorem Sound.name_eq (hs : ns.Sound) {d d' : String × Nat} (hd : d ∈ ns.visible)
    (hd' : d' ∈ ns.visible) (h : d.2 = d'.2) : d.1 = d'.1 :=
  Option.some.inj ((hs d hd).1.symm.trans ((congrArg (ns.declared[·]?) h).trans (hs d' hd').1))

theorem Sound.name_ne (hs : ns.Sound) (hr : r.name ∉ ns.declared) {d : String × Nat}
    (hd : d ∈ ns.visible) : d.1 ≠ r.name := fun h =>
  hr (h ▸ List.mem_of_getElem? (hs d hd).1)

/-- **A renamed identifier refers to the declaration to which it referred before.** -/
theorem resolve_renamed (hs : ns.Sound) (hr : r.name ∉ ns.declared) {name : String}
    (hname : name ≠ r.name) :
    (ns.renamed r).resolve (r.identifier ns name) = ns.resolve name := by
  have h := Renaming.lookup_apply Prod.fst Prod.snd Prod.snd hname ns.visible
    (fun d hd => hs.name_ne hr hd) fun d hd d' hd' => hs.name_eq hd hd'
  simpa [resolve, Renaming.identifier, renamed] using h

theorem renamed_use (hs : ns.Sound) {es : List Expr} (hr : r.Fresh (ns.use es)) :
    (ns.renamed r).use (es.map (r.expr ns)) = (ns.use es).renamed r := by
  have hnames : (es.map (r.expr ns)).flatMap Expr.names =
      (es.flatMap Expr.names).map (r.identifier ns) := by
    simp only [List.flatMap_map, Renaming.expr, Expr.names_mapNames, List.map_flatMap]
  have hused : ((es.flatMap Expr.names).map (r.identifier ns)).map
        (fun name => (name, (ns.renamed r).resolve name)) =
      ((es.flatMap Expr.names).map fun name => (name, ns.resolve name)).map
        fun u => (r.apply u.2 u.1, u.2) := by
    rw [List.map_map, List.map_map]
    refine List.map_congr_left fun name hname => ?_
    have hne : name ≠ r.name := hr.used (name, ns.resolve name) <|
      List.mem_append_right _ (List.mem_map_of_mem hname)
    exact Prod.ext rfl (resolve_renamed hs hr.declared hne)
  unfold use
  rw [hnames, hused, renamed, renamed, List.map_append]

theorem renamed_use_single (hs : ns.Sound) {e : Expr} (hr : r.Fresh (ns.use [e])) :
    (ns.renamed r).use [r.expr ns e] = (ns.use [e]).renamed r :=
  renamed_use hs hr

theorem renamed_use_toList (hs : ns.Sound) {e : Option Expr} (hr : r.Fresh (ns.use e.toList)) :
    (ns.renamed r).use (e.map (r.expr ns)).toList = (ns.use e.toList).renamed r := by
  rw [← renamed_use hs hr]
  cases e <;> rfl

theorem renamed_leave (r : Renaming) (ns outer : Names) :
    (ns.renamed r).leave (outer.renamed r) = (ns.leave outer).renamed r := rfl

/-- A declaration of the renamed function. -/
abbrev renamedDeclaration (r : Renaming) (d : Option (String × Nat)) : Option (String × Nat) :=
  d.map fun d => (r.apply (some d.2) d.1, d.2)

theorem renamed_bring (r : Renaming) (ns : Names) (d : Option (String × Nat)) :
    (ns.renamed r).bring (renamedDeclaration r d) = (ns.bring d).renamed r := by
  cases d <;> rfl

theorem renamed_record {d : Option (String × Nat)} (hd : ∀ x ∈ d, x.2 = ns.declared.length) :
    (ns.renamed r).record (renamedDeclaration r d) = (ns.record d).renamed r := by
  cases d with
  | none => simp [record, renamed]
  | some d =>
      have hindex : d.2 = ns.declared.length := hd d rfl
      simp [record, renamed, List.mapIdx_concat, hindex]

theorem renamed_next? (hblank : r.name ≠ Scopes.blankName) (name : String) :
    (ns.renamed r).next? (r.binder ns name) = renamedDeclaration r (ns.next? name) := by
  by_cases hname : name = Scopes.blankName
  · simp [next?, hname]
  · simp [next?, hname, renamed, r.binder_eq ns hname, r.apply_ne_blank hblank hname]

theorem renamed_declare (hblank : r.name ≠ Scopes.blankName) (name : String) :
    (ns.renamed r).declare (r.binder ns name) = (ns.declare name).renamed r := by
  unfold declare
  rw [renamed_next? hblank, renamed_record fun d hd => congrArg Prod.snd (eq_of_next? hd).1,
    renamed_bring]

/-- The binding of a type switch is counted before it is seen. -/
theorem renamed_record_bind (hblank : r.name ≠ Scopes.blankName) (ns : Names)
    (binding : Option String) :
    (binding.map (r.binder ns)).bind (ns.renamed r).next? =
        renamedDeclaration r (binding.bind ns.next?) ∧
      (ns.renamed r).record (renamedDeclaration r (binding.bind ns.next?)) =
        (ns.record (binding.bind ns.next?)).renamed r := by
  cases binding with
  | none => exact ⟨rfl, renamed_record (by simp)⟩
  | some name =>
      exact ⟨renamed_next? hblank name,
        renamed_record fun d hd => congrArg Prod.snd (eq_of_next? hd).1⟩

theorem renamed_declareAll (hblank : r.name ≠ Scopes.blankName) (names : List String)
    (ns : Names) :
    (ns.renamed r).declareAll (r.binders ns names) = (ns.declareAll names).renamed r := by
  induction names generalizing ns with
  | nil => rfl
  | cons name names ih =>
      have h := ih (ns.declare name)
      rw [← renamed_declare hblank] at h
      exact h

theorem renamed_rangeVariable (hblank : r.name ≠ Scopes.blankName) (hs : ns.Sound)
    (define : Bool) (e : Option Expr) (hr : r.Fresh (ns.rangeVariable define e)) :
    (ns.renamed r).rangeVariable define (r.rangeVariable ns define e) =
      (ns.rangeVariable define e).renamed r := by
  cases e with
  | none => rfl
  | some e =>
      cases he : e.defined? define with
      | none =>
          have hnone : (r.expr ns e).defined? define = none := by
            rw [Renaming.expr, Expr.defined?_mapNames, he]
            rfl
          simp only [rangeVariable, Renaming.rangeVariable, he, Option.map_some, hnone] at hr ⊢
          exact renamed_use hs hr
      | some name =>
          have hsome : (e.mapNames (r.binder ns)).defined? define = some (r.binder ns name) := by
            rw [Expr.defined?_mapNames, he]
            rfl
          simp only [rangeVariable, Renaming.rangeVariable, he, Option.map_some, hsome]
          exact renamed_declare hblank name

end Names

/-! ## Statements -/

variable {r : Renaming}

open Names (Grows)

mutual

theorem Stmt.scan_rename (hblank : r.name ≠ Scopes.blankName) :
    ∀ (s : Stmt) (ns : Names), ns.Sound → r.Fresh (s.scan ns) →
      (s.rename r ns).scan (ns.renamed r) = (s.scan ns).renamed r
  | .block body _, ns, hs, hr => by
      rw [Stmt.rename, Stmt.scan, Stmt.scan]
      rw [Stmt.scan] at hr
      exact Block.scan_rename hblank body ns hs hr
  | .labeled _ stmt _, ns, hs, hr => by
      rw [Stmt.rename, Stmt.scan, Stmt.scan]
      rw [Stmt.scan] at hr
      exact Stmt.scan_rename hblank stmt ns hs hr
  | .ifElse init cond thenBlock elseBranch _, ns, hs, hr => by
      rw [Stmt.scan] at hr
      replace hr := hr.of_leave
      have hinit := Stmt.grows_scanIfAny init ns
      have hcond := Grows.use (Stmt.scanIfAny init ns) [cond]
      have hthen := Block.grows_scan thenBlock ((Stmt.scanIfAny init ns).use [cond])
      have hrthen := hr.of_grows (Stmt.grows_scanElse elseBranch _)
      have hrcond := hrthen.of_grows hthen
      rw [Stmt.rename, Stmt.scan, Stmt.scan,
        Stmt.scanIfAny_rename hblank init ns hs (hrcond.of_grows hcond),
        Names.renamed_use_single (hinit.sound hs) hrcond,
        Block.scan_rename hblank thenBlock _ ((hinit.trans hcond).sound hs) hrthen,
        Stmt.scanElse_rename hblank elseBranch _ ((hinit.trans (hcond.trans hthen)).sound hs) hr,
        Names.renamed_leave]
  | .forLoop init cond post body _, ns, hs, hr => by
      rw [Stmt.scan] at hr
      replace hr := hr.of_leave
      have hinit := Stmt.grows_scanIfAny init ns
      have hcond := Grows.use (Stmt.scanIfAny init ns) cond.toList
      have hbody := Block.grows_scan body ((Stmt.scanIfAny init ns).use cond.toList)
      have hrbody := hr.of_grows (Stmt.grows_scanIfAny post _)
      have hrcond := hrbody.of_grows hbody
      rw [Stmt.rename, Stmt.scan, Stmt.scan,
        Stmt.scanIfAny_rename hblank init ns hs (hrcond.of_grows hcond),
        Names.renamed_use_toList (hinit.sound hs) hrcond,
        Block.scan_rename hblank body _ ((hinit.trans hcond).sound hs) hrbody,
        Stmt.scanIfAny_rename hblank post _ ((hinit.trans (hcond.trans hbody)).sound hs) hr,
        Names.renamed_leave]
  | .range key value define subject body _, ns, hs, hr => by
      rw [Stmt.scan] at hr
      replace hr := hr.of_leave
      have hsubject := Grows.use ns [subject]
      have hkey := Grows.rangeVariable (ns.use [subject]) define key
      have hvalue := Grows.rangeVariable ((ns.use [subject]).rangeVariable define key) define value
      have hrvalue := hr.of_grows (Block.grows_scan body _)
      have hrkey := hrvalue.of_grows hvalue
      rw [Stmt.rename, Stmt.scan, Stmt.scan,
        Names.renamed_use_single hs (hrkey.of_grows hkey),
        Names.renamed_rangeVariable hblank (hsubject.sound hs) define key hrkey,
        Names.renamed_rangeVariable hblank ((hsubject.trans hkey).sound hs) define value hrvalue,
        Block.scan_rename hblank body _ ((hsubject.trans (hkey.trans hvalue)).sound hs) hr,
        Names.renamed_leave]
  | .define names values _, ns, hs, hr => by
      rw [Stmt.scan] at hr
      rw [Stmt.rename, Stmt.scan, Stmt.scan,
        Names.renamed_use hs (hr.of_grows (.declareAll _ names)),
        Names.renamed_declareAll hblank]
  | .assign targets values _, ns, hs, hr => by
      rw [Stmt.scan] at hr
      rw [Stmt.rename, Stmt.scan, Stmt.scan, ← List.map_append, Names.renamed_use hs hr]
  | .switch init tag clauses _, ns, hs, hr => by
      rw [Stmt.scan] at hr
      replace hr := hr.of_leave
      have hinit := Stmt.grows_scanIfAny init ns
      have htag := Grows.use (Stmt.scanIfAny init ns) tag.toList
      have hrtag := hr.of_grows (CaseClause.grows_scanEach none clauses _ (by simp))
      have hclauses := CaseClause.scanEach_rename hblank none clauses _ (by simp)
        ((hinit.trans htag).sound hs) hr
      rw [Stmt.rename, Stmt.scan, Stmt.scan,
        Stmt.scanIfAny_rename hblank init ns hs (hrtag.of_grows htag),
        Names.renamed_use_toList (hinit.sound hs) hrtag, ← Names.renamed_leave, ← hclauses]
      rfl
  | .typeSwitch init binding subject clauses _, ns, hs, hr => by
      rw [Stmt.scan] at hr
      replace hr := hr.of_leave
      have hinit := Stmt.grows_scanIfAny init ns
      have hsubject := Grows.use (Stmt.scanIfAny init ns) [subject]
      have hbinding := Grows.record ((Stmt.scanIfAny init ns).use [subject])
        (binding.bind ((Stmt.scanIfAny init ns).use [subject]).next?)
      have hd := Names.declares_record_bind ((Stmt.scanIfAny init ns).use [subject]) binding
      have hrbinding := hr.of_grows (CaseClause.grows_scanEach _ clauses _ hd)
      have hrsubject := hrbinding.of_grows hbinding
      obtain ⟨hnext, hrecord⟩ := Names.renamed_record_bind hblank
        ((Stmt.scanIfAny init ns).use [subject]) binding
      rw [Stmt.rename, Stmt.scan, Stmt.scan,
        Stmt.scanIfAny_rename hblank init ns hs (hrsubject.of_grows hsubject),
        Names.renamed_use_single (hinit.sound hs) hrsubject, hnext, hrecord,
        CaseClause.scanEach_rename hblank _ clauses _ hd
          ((hinit.trans (hsubject.trans hbinding)).sound hs) hr, Names.renamed_leave]
  | .ret results _, ns, hs, hr => by
      rw [Stmt.scan] at hr
      rw [Stmt.rename, Stmt.scan, Stmt.scan, Names.renamed_use hs hr]
  | .expr e _, ns, hs, hr => by
      rw [Stmt.scan] at hr
      rw [Stmt.rename, Stmt.scan, Stmt.scan]
      exact Names.renamed_use hs hr
  | .skipped _ _, ns, _, _ => by rw [Stmt.rename, Stmt.scan, Stmt.scan]
  | .bad _, ns, _, _ => by rw [Stmt.rename, Stmt.scan, Stmt.scan]

theorem Stmt.scanEach_rename (hblank : r.name ≠ Scopes.blankName) :
    ∀ (stmts : List Stmt) (ns : Names), ns.Sound → r.Fresh (Stmt.scanEach stmts ns) →
      Stmt.scanEach (Stmt.renameEach r stmts ns) (ns.renamed r) =
        (Stmt.scanEach stmts ns).renamed r
  | [], ns, _, _ => by rw [Stmt.renameEach, Stmt.scanEach, Stmt.scanEach]
  | s :: rest, ns, hs, hr => by
      rw [Stmt.scanEach] at hr
      rw [Stmt.renameEach, Stmt.scanEach, Stmt.scanEach,
        Stmt.scan_rename hblank s ns hs (hr.of_grows (Stmt.grows_scanEach rest _)),
        Stmt.scanEach_rename hblank rest _ ((Stmt.grows_scan s ns).sound hs) hr]

theorem Stmt.scanIfAny_rename (hblank : r.name ≠ Scopes.blankName) :
    ∀ (s : Option Stmt) (ns : Names), ns.Sound → r.Fresh (Stmt.scanIfAny s ns) →
      Stmt.scanIfAny (Stmt.renameIfAny r s ns) (ns.renamed r) = (Stmt.scanIfAny s ns).renamed r
  | none, ns, _, _ => by rw [Stmt.renameIfAny, Stmt.scanIfAny, Stmt.scanIfAny]
  | some s, ns, hs, hr => by
      rw [Stmt.scanIfAny] at hr
      rw [Stmt.renameIfAny, Stmt.scanIfAny, Stmt.scanIfAny, Stmt.scan_rename hblank s ns hs hr]

theorem Block.scan_rename (hblank : r.name ≠ Scopes.blankName) :
    ∀ (b : Block) (ns : Names), ns.Sound → r.Fresh (b.scan ns) →
      (b.rename r ns).scan (ns.renamed r) = (b.scan ns).renamed r
  | ⟨stmts, _⟩, ns, hs, hr => by
      rw [Block.scan] at hr
      rw [Block.rename, Block.scan, Block.scan,
        Stmt.scanEach_rename hblank stmts ns hs ⟨hr.declared, hr.used⟩, Names.renamed_leave]

theorem Stmt.scanElse_rename (hblank : r.name ≠ Scopes.blankName) :
    ∀ (s : Option Stmt) (ns : Names), ns.Sound → r.Fresh (Stmt.scanElse s ns) →
      Stmt.scanElse (Stmt.renameIfAny r s ns) (ns.renamed r) = (Stmt.scanElse s ns).renamed r
  | none, ns, _, _ => by rw [Stmt.renameIfAny, Stmt.scanElse, Stmt.scanElse]
  | some s, ns, hs, hr => by
      cases s with
      | ifElse init cond thenBlock elseBranch span =>
          rw [Stmt.scanElse] at hr
          have hinit := Stmt.grows_scanIfAny init ns
          have hcond := Grows.use (Stmt.scanIfAny init ns) [cond]
          have hthen := Block.grows_scan thenBlock ((Stmt.scanIfAny init ns).use [cond])
          have hrthen := hr.of_grows (Stmt.grows_scanElse elseBranch _)
          have hrcond := hrthen.of_grows hthen
          rw [Stmt.renameIfAny, Stmt.rename, Stmt.scanElse, Stmt.scanElse,
            Stmt.scanIfAny_rename hblank init ns hs (hrcond.of_grows hcond),
            Names.renamed_use_single (hinit.sound hs) hrcond,
            Block.scan_rename hblank thenBlock _ ((hinit.trans hcond).sound hs) hrthen,
            Stmt.scanElse_rename hblank elseBranch _
              ((hinit.trans (hcond.trans hthen)).sound hs) hr]
      | _ =>
          rw [Stmt.scanElse_of_ne (by simp)] at hr
          have h := Stmt.scan_rename hblank _ ns hs hr
          rw [Stmt.renameIfAny, Stmt.scanElse_of_ne (by simp [Stmt.rename]), h,
            Stmt.scanElse_of_ne (by simp)]

theorem CaseClause.scanEach_rename (hblank : r.name ≠ Scopes.blankName)
    (d : Option (String × Nat)) :
    ∀ (clauses : List CaseClause) (ns : Names), (∀ x ∈ d, ns.Declares x) → ns.Sound →
      r.Fresh (CaseClause.scanEach d clauses ns) →
      CaseClause.scanEach (Names.renamedDeclaration r d) (CaseClause.renameEach r d clauses ns)
        (ns.renamed r) = (CaseClause.scanEach d clauses ns).renamed r
  | [], ns, _, _, _ => by rw [CaseClause.renameEach, CaseClause.scanEach, CaseClause.scanEach]
  | ⟨exprs, body, _⟩ :: rest, ns, hd, hs, hr => by
      rw [CaseClause.scanEach] at hr
      have hexprs := Grows.use ns exprs
      have hseen : ∀ x ∈ d, (ns.use exprs).Declares x := hd
      have hbring := Grows.bring hseen
      have hbody := Stmt.grows_scanEach body ((ns.use exprs).bring d)
      have hclause := (hexprs.trans (hbring.trans hbody)).leave
      have hd' : ∀ x ∈ d, ((Stmt.scanEach body ((ns.use exprs).bring d)).leave ns).Declares x :=
        fun x hx => (hd x hx).later hclause.declared
      have hrbody := (hr.of_grows (CaseClause.grows_scanEach d rest _ hd')).of_leave
      rw [CaseClause.renameEach, CaseClause.scanEach, CaseClause.scanEach,
        Names.renamed_use hs ((hrbody.of_grows hbody).of_grows hbring), Names.renamed_bring,
        Stmt.scanEach_rename hblank body _ ((hexprs.trans hbring).sound hs) hrbody,
        Names.renamed_leave,
        CaseClause.scanEach_rename hblank d rest _ hd' (hclause.sound hs) hr]

end

/-! ## Functions -/

theorem Renaming.filterMap_results (results : List (Option String)) (ns : Names) :
    (r.results ns results).filterMap id = r.binders ns (results.filterMap id) := by
  induction results generalizing ns with
  | nil => rfl
  | cons result rest ih =>
      cases result with
      | none => exact ih ns
      | some name => exact congrArg (r.binder ns name :: ·) (ih (ns.declare name))

theorem Renaming.length_binders (names : List String) (ns : Names) :
    (r.binders ns names).length = names.length := by
  induction names generalizing ns with
  | nil => rfl
  | cons name names ih => exact congrArg Nat.succ (ih (ns.declare name))

theorem Renaming.length_results (results : List (Option String)) (ns : Names) :
    (r.results ns results).length = results.length := by
  induction results generalizing ns with
  | nil => rfl
  | cons result rest ih =>
      cases result with
      | none => exact congrArg Nat.succ (ih ns)
      | some name => exact congrArg Nat.succ (ih (ns.declare name))

theorem Renaming.mapIdx_apply (names : List String) :
    names.mapIdx (fun i name => r.apply (some i) name) = names.set r.declaration r.name := by
  refine List.ext_getElem? fun i => ?_
  rw [List.getElem?_mapIdx, List.getElem?_set]
  by_cases hi : r.declaration = i
  · by_cases hlt : i < names.length <;> simp [Renaming.apply, hi, hlt]
  · simp [Renaming.apply, hi, Ne.symm hi]

namespace FunctionDecl

variable {f : FunctionDecl}

theorem sound_heading (f : FunctionDecl) : f.heading.Sound :=
  ((Grows.declareAll .empty f.params).trans (.declareAll _ _)).sound Names.sound_empty

theorem fresh_of_not_mem_names (h : r.name ∉ f.names) : r.Fresh (f.body.scan f.heading) where
  declared hmem := h (List.mem_append_left _ hmem)
  used _ hu heq := h (List.mem_append_right _ (heq ▸ List.mem_map_of_mem hu))

theorem heading_rename (hblank : r.name ≠ Scopes.blankName) (f : FunctionDecl) :
    (f.rename r).heading = f.heading.renamed r := by
  have hparams := Names.renamed_declareAll hblank f.params .empty
  have hresults := Names.renamed_declareAll hblank (f.results.filterMap id)
    (Names.empty.declareAll f.params)
  rw [heading, heading, ← hresults, ← hparams, ← Renaming.filterMap_results]
  rfl

/-- **Renaming changes the name of one declaration and of the identifiers that refer to it**, and
every identifier refers to the same declaration as before. -/
theorem declared_used_rename (hblank : r.name ≠ Scopes.blankName) (h : r.name ∉ f.names) :
    (f.rename r).declared = f.declared.set r.declaration r.name ∧
      (f.rename r).used = f.used.map fun u => (r.apply u.2 u.1, u.2) := by
  have hscan : (f.rename r).body.scan (f.rename r).heading = (f.body.scan f.heading).renamed r := by
    rw [heading_rename hblank]
    exact Block.scan_rename hblank f.body f.heading f.sound_heading (fresh_of_not_mem_names h)
  unfold declared used
  rw [hscan]
  exact ⟨Renaming.mapIdx_apply _, rfl⟩

end FunctionDecl

end SliceLineage
