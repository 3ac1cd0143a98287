import Mathlib
import SliceLineage.Settings.Document

/-!
# Documents survive their nodes

The members of a settings document are written with all their values, and read back by name. A
member that is left out where a document has nothing to say is one whose default says the same, so
that reading the node of a document gives the document.

* `Yaml.natural?_repr`: a number is read back from its digits.
* `Yaml.Node.fields?_ofFields`, `Yaml.Node.list?_ofList`, `Yaml.Node.nullable?_ofOption`: so are
  the members of a mapping, the items of a sequence and what may be nothing.
* `SettingsDocument.ofNode?_toNode`: and so is the whole document.
-/

namespace SliceLineage

namespace Yaml

/-! ## Numbers -/

theorem hexDigit?_of_isDigit {c : Char} (h : c.isDigit = true) :
    (hexDigit? c).filter (· < 10) = some (c.toNat - 48) := by
  have hrange : '0' ≤ c ∧ c ≤ '9' := by
    simpa [Char.isDigit, Char.le_def] using h
  have hlt : c.toNat ≤ 57 := hrange.2
  rw [hexDigit?, if_pos hrange, Option.filter_some, if_pos]
  exact decide_eq_true (by omega)

/-- Decimal digits are read as the number that they stand for. -/
theorem digits?_ten {cs : List Char} (hne : cs ≠ []) (h : ∀ c ∈ cs, c.isDigit = true) :
    digits? 10 cs = some (Nat.ofDigitChars 10 cs 0) := by
  have hfold : ∀ (cs : List Char) (n : Nat), (∀ c ∈ cs, c.isDigit = true) →
      cs.foldlM (fun n c => ((hexDigit? c).filter (· < 10)).map (10 * n + ·)) n =
        some (Nat.ofDigitChars 10 cs n) := by
    intro cs
    induction cs with
    | nil => exact fun _ _ => rfl
    | cons c cs ih =>
        intro n hcs
        rw [List.foldlM_cons, hexDigit?_of_isDigit (hcs c List.mem_cons_self)]
        exact ih _ fun d hd => hcs d (List.mem_cons_of_mem c hd)
  rw [digits?, if_neg (by simpa using hne)]
  exact hfold cs 0 h

/-- The digits of a number do not start with a superfluous zero. -/
theorem toDigits_ne_zero_cons (n : Nat) (c : Char) (rest : List Char) :
    Nat.toDigits 10 n ≠ '0' :: c :: rest := by
  induction n using Nat.strongRecOn generalizing c rest with
  | ind n ih =>
      rw [Nat.toDigits_eq_if (by decide)]
      split
      · simp
      · rename_i hn
        intro heq
        cases hdigits : Nat.toDigits 10 (n / 10) with
        | nil => exact Nat.toDigits_ne_nil hdigits
        | cons d ds =>
            rw [hdigits] at heq
            obtain ⟨rfl, heq⟩ := List.cons.inj heq
            cases ds with
            | nil =>
                -- the number without its last digit would be zero
                have hzero : n / 10 = 0 := by
                  rw [← Nat.ofDigitChars_ten_toDigits (n := n / 10), hdigits]
                  rfl
                omega
            | cons d' ds' => exact ih (n / 10) (by omega) d' ds' hdigits

/-- **A number is read back from its digits.** -/
theorem natural?_repr (n : Nat) : natural? n.repr = some n := by
  have hdigit : ∀ c ∈ Nat.toDigits 10 n, c.isDigit = true := fun c hc =>
    Nat.isDigit_of_mem_toDigits (by decide) (by decide) hc
  have hplus : dropPlus (Nat.toDigits 10 n) = Nat.toDigits 10 n := by
    unfold dropPlus
    split
    · rename_i heq
      exact absurd (hdigit '+' (heq ▸ List.mem_cons_self)) (by decide)
    · rfl
  have hradix : radixNumber? (Nat.toDigits 10 n) = none := by
    unfold radixNumber?
    split
    · exact absurd ‹_› (toDigits_ne_zero_cons n _ _)
    · exact absurd ‹_› (toDigits_ne_zero_cons n _ _)
    · exact absurd ‹_› (toDigits_ne_zero_cons n _ _)
    · rfl
  have hzero : hasLeadingZero (Nat.toDigits 10 n) = false := by
    unfold hasLeadingZero
    split
    · exact absurd ‹_› (toDigits_ne_zero_cons n _ _)
    · rfl
  simp only [natural?, Nat.toList_repr, hplus, hradix, hzero, Bool.false_eq_true, if_false]
  rw [digits?_ten Nat.toDigits_ne_nil hdigit, Nat.ofDigitChars_ten_toDigits]

theorem isNullText_repr (n : Nat) : isNullText n.repr = false := by
  cases hnull : isNullText n.repr with
  | false => rfl
  | true =>
      have hcases : n.repr = "" ∨ n.repr = "~" ∨ n.repr = "null" ∨ n.repr = "Null" ∨
          n.repr = "NULL" := by simpa [isNullText] using hnull
      have hnumber := natural?_repr n
      rcases hcases with h | h | h | h | h <;> rw [h] at hnumber <;> cases hnumber

/-! ## Nodes -/

namespace Node

@[simp]
theorem string?_ofString (text : String) : (ofString text).string? = some text := rfl

@[simp]
theorem bool?_ofBool (b : Bool) : (ofBool b).bool? = some b := by
  cases b <;> decide

theorem natBelow?_ofNat {bound n : Nat} (h : n < bound) : (ofNat n).natBelow? bound = some n := by
  simp [ofNat, plain, natBelow?, natural?_repr, h]

@[simp]
theorem word32?_ofNat (w : UInt32) : (ofNat w.toNat).word32? = some w := by
  rw [word32?, natBelow?_ofNat w.toNat_lt, Option.map_some, UInt32.ofNat_toNat]

@[simp]
theorem word64?_ofNat (w : UInt64) : (ofNat w.toNat).word64? = some w := by
  rw [word64?, natBelow?_ofNat w.toNat_lt, Option.map_some, UInt64.ofNat_toNat]

section

variable {α : Type} {encode : α → Node} {decode : Node → Option α}

/-- The node is not one that stands for nothing. -/
def IsSomething (n : Node) : Prop := ∀ text, n = plain text → isNullText text = false

theorem isSomething_ofNat (n : Nat) : (ofNat n).IsSomething := by
  intro text h
  cases h
  exact isNullText_repr n

theorem isSomething_ofFields (fields : Fields) : (ofFields fields).IsSomething := by
  intro text h
  cases h

theorem nullable?_eq_some {n : Node} {a : α} (hsome : n.IsSomething) (h : decode n = some a) :
    nullable? decode n = some (some a) := by
  unfold nullable?
  split
  · rw [if_neg (by simpa using hsome _ rfl), h, Option.map_some]
  · rw [h, Option.map_some]

/-- What may be nothing is read back. -/
theorem nullable?_ofOption (hsome : ∀ a, (encode a).IsSomething)
    (h : ∀ a, decode (encode a) = some a) (o : Option α) :
    nullable? decode (ofOption encode o) = some o := by
  cases o with
  | none =>
      have hnull : isNullText "null" = true := by decide
      rw [ofOption, plain, nullable?, if_pos hnull]
  | some a => exact nullable?_eq_some (hsome a) (h a)

/-- Items are read back one by one. -/
theorem list?_ofList (h : ∀ a, decode (encode a) = some a) (items : List α) :
    list? decode (ofList encode items) = some items := by
  have hid : decode ∘ encode = pure := funext h
  rw [ofList, list?, List.mapM_map, hid, List.mapM_pure, List.map_id']
  rfl

end

/-- Members are read back if their names are some of the known ones, in their order. -/
theorem fields?_ofFields {names : List String} {fields : Fields}
    (hfields : (fields.map Prod.fst).Sublist names) (hnames : names.Nodup) :
    fields? names (ofFields fields) = some fields := by
  have hentries : (fields.map fun e => (ofString e.1, e.2)).mapM
      (fun e => e.1.string?.map (·, e.2)) = some fields := by
    rw [List.mapM_map]
    exact (List.mapM_pure (m := Option) (f := id)).trans (congrArg some (List.map_id fields))
  have hknown : (fields.map Prod.fst).all names.contains = true :=
    List.all_eq_true.mpr fun name hname => List.contains_iff_mem.mpr (hfields.subset hname)
  show ((fields.map fun e => (ofString e.1, e.2)).mapM (fun e => e.1.string?.map (·, e.2)) >>=
    fun found => if (found.map Prod.fst).all names.contains && decide (found.map Prod.fst).Nodup
      then some found else none) = some fields
  rw [hentries]
  show (if (fields.map Prod.fst).all names.contains && decide (fields.map Prod.fst).Nodup then
    some fields else none) = _
  rw [hknown, decide_eq_true (hnames.sublist hfields)]
  rfl

end Node

end Yaml

open Yaml (Node)
open Yaml.Node

/-! ## Stages -/

theorem TraceSettings.ofNode?_toNode (s : TraceSettings) : ofNode? s.toNode = some s := by
  rw [ofNode?, toNode, fields?_ofFields (by simp) (by simp)]
  simp [Fields.getD?, Fields.getOpt?, List.lookup,
    nullable?_ofOption (fun n : UInt64 => isSomething_ofNat n.toNat) word64?_ofNat]

theorem PathSettings.ofNode?_toNode (s : PathSettings) : ofNode? s.toNode = some s := by
  rw [ofNode?, toNode, fields?_ofFields (by simp) (by simp)]
  simp [Fields.getD?]

theorem ParallelSettings.ofNode?_toNode (s : ParallelSettings) : ofNode? s.toNode = some s := by
  rw [ofNode?, toNode, fields?_ofFields (by simp) (by simp)]
  simp [Fields.getD?, List.lookup]

/-! ## Summaries -/

theorem FieldPath.ofNode?_toNode (p : FieldPath) : ofNode? (toNode p) = some p :=
  list?_ofList string?_ofString p

theorem InputRef.ofNode?_toNode (r : InputRef) : ofNode? r.toNode = some r := by
  rw [ofNode?, toNode, fields?_ofFields (by simp) (by simp)]
  simp [Fields.getD?, Fields.get?, List.lookup]

theorem InputSlot.ofNode?_toNode (s : InputSlot) : ofNode? s.toNode = some s := by
  rw [ofNode?, toNode, fields?_ofFields (by simp) (by simp)]
  simp [Fields.getD?, list?_ofList FieldPath.ofNode?_toNode]

theorem GenStep.ofName?_name (s : GenStep) : ofName? s.name = some s := by
  cases s <;> rfl

theorem OutputComponent.ofNode?_toNode (c : OutputComponent) : ofNode? c.toNode = some c := by
  have hsource : nullable? InputRef.ofNode? (ofOption InputRef.toNode c.source) = some c.source :=
    nullable?_ofOption (fun _ => isSomething_ofFields _) InputRef.ofNode?_toNode c.source
  rw [ofNode?, toNode, fields?_ofFields (by simp) (by simp)]
  simp [Fields.getD?, Fields.getOpt?, List.lookup, FieldPath.ofNode?_toNode, GenStep.ofName?_name,
    hsource]

theorem OutputSlot.ofNode?_toNode (s : OutputSlot) : ofNode? s.toNode = some s := by
  rw [ofNode?, toNode, fields?_ofFields (by simp) (by simp)]
  simp [Fields.get?, list?_ofList OutputComponent.ofNode?_toNode]

theorem Outcome.ofNode?_toNode (o : Outcome) : ofNode? o.toNode = some o := by
  rw [ofNode?, toNode, fields?_ofFields (by simp) (by simp)]
  simp [Fields.get?, list?_ofList OutputSlot.ofNode?_toNode]

theorem Summary.ofNode?_toNode (s : Summary) : ofNode? s.toNode = some s := by
  rw [ofNode?, toNode, fields?_ofFields (by simp) (by simp)]
  simp [Fields.getD?, Fields.get?, List.lookup, list?_ofList InputSlot.ofNode?_toNode,
    list?_ofList Outcome.ofNode?_toNode]

/-! ## Documents -/

namespace SettingsDocument

variable {α : Type}

/-- The member for something that may be absent; it is left out then. -/
def member (name : String) (encode : α → Node) (o : Option α) : Fields :=
  (o.map fun a => (name, encode a)).toList

theorem lookup_member (key name : String) (encode : α → Node) (o : Option α) :
    (member name encode o).lookup key = if key = name then o.map encode else none := by
  cases o with
  | none => simp [member]
  | some a =>
      by_cases h : key = name
      · simp [member, h]
      · have hne : (key == name) = false := beq_false_of_ne h
        simp [member, List.lookup_cons, h, hne]

theorem names_member (name : String) (encode : α → Node) (o : Option α) :
    ((member name encode o).map Prod.fst).Sublist [name] := by
  cases o <;> simp [member]

/-- What may be absent is read back. -/
theorem getOpt?_eq {fields : Fields} {name : String} {encode : α → Node} {decode : Node → Option α}
    {o : Option α} (hlookup : fields.lookup name = o.map encode)
    (hsome : ∀ a, (encode a).IsSomething) (h : ∀ a, decode (encode a) = some a) :
    fields.getOpt? name decode = some o := by
  rw [Fields.getOpt?, Fields.getD?, hlookup]
  cases o with
  | none => rfl
  | some a => exact nullable?_eq_some (hsome a) (h a)

/-- **A document is read back from its node.** Members are left out only where their default says
the same. -/
theorem ofNode?_toNode (d : SettingsDocument) : ofNode? d.toNode = some d := by
  obtain ⟨version, preset, trace, paths, parallel, summaries⟩ := d
  -- an empty list of summaries is left out as if it were absent
  let given : Option (List Summary) := if summaries.isEmpty then none else some summaries
  let fields : Fields := [("version", ofOption (fun v => ofNat v.toNat) version),
      ("preset", ofString preset)] ++ member "trace" TraceSettings.toNode trace ++
    member "factorization" PathSettings.toNode paths ++
    member "parallel" ParallelSettings.toNode parallel ++
    member "summaries" (ofList Summary.toNode) given
  have hfields : toNode ⟨version, preset, trace, paths, parallel, summaries⟩ = ofFields fields := by
    cases summaries <;> rfl
  have hlookup : fields.lookup "version" = some (ofOption (fun v => ofNat v.toNat) version) ∧
      fields.lookup "preset" = some (ofString preset) ∧
      fields.lookup "trace" = trace.map TraceSettings.toNode ∧
      fields.lookup "factorization" = paths.map PathSettings.toNode ∧
      fields.lookup "parallel" = parallel.map ParallelSettings.toNode ∧
      fields.lookup "summaries" = given.map (ofList Summary.toNode) := by
    simp [fields, List.lookup_append, lookup_member, List.lookup_cons]
  obtain ⟨hversion, hpreset, htrace, hpaths, hparallel, hgiven⟩ := hlookup
  have hsublist : (fields.map Prod.fst).Sublist
      ["version", "preset", "trace", "factorization", "parallel", "summaries"] := by
    simp only [fields, List.map_append]
    exact ((((List.Sublist.refl _).append (names_member _ _ _)).append
      (names_member _ _ _)).append (names_member _ _ _)).append (names_member _ _ _)
  have hsummaries : fields.getD? "summaries" [] (list? Summary.ofNode?) = some summaries := by
    rw [Fields.getD?, hgiven]
    cases summaries with
    | nil => rfl
    | cons s rest => exact list?_ofList Summary.ofNode?_toNode (s :: rest)
  have hpreset' : fields.getD? "preset" Preset.balanced.name string? = some preset := by
    rw [Fields.getD?, hpreset]
    rfl
  have hversion' : fields.getOpt? "version" word32? = some version := by
    rw [Fields.getOpt?, Fields.getD?, hversion]
    exact nullable?_ofOption (fun n => isSomething_ofNat n.toNat) word32?_ofNat version
  rw [hfields, ofNode?, fields?_ofFields hsublist (by decide)]
  simp only [Option.bind_eq_bind, Option.bind_some, hversion', hpreset', hsummaries,
    getOpt?_eq htrace (fun _ => isSomething_ofFields _) TraceSettings.ofNode?_toNode,
    getOpt?_eq hpaths (fun _ => isSomething_ofFields _) PathSettings.ofNode?_toNode,
    getOpt?_eq hparallel (fun _ => isSomething_ofFields _) ParallelSettings.ofNode?_toNode]
  rfl

end SettingsDocument

end SliceLineage
