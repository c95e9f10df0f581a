import Contextd.Data.Dom
import Contextd.Data.Number
import Contextd.Policy.Rule
import Mathlib.Algebra.GroupWithZero.Nat

/-!
# The variables of a program

`ProgramVariable`: a variable of an action, with a type, and the data by which the values of the
type are validated, which is written to an attribute of the variable's element by another pair of
functions for each type (`variableElement`, `variableOf`).

A variable that is written and read has the data of its own type only (`reread`).  It accepts the
values it did, unless it is for a list of strings with a `;` in one of them
(`sameVariable_reread_iff`).
-/

namespace Policy

open List QString

/-! ### What is used of `QString` -/

/-- `QString::toLower`. -/
structure Strings where
  toLower : String → String

/-- What is documented: letters that are small stay. -/
structure Strings.Documented (qt : Strings) : Prop where
  toLower_of_isLower : ∀ s : String, (∀ c ∈ s.toList, c.isLower ∨ c = '_') → qt.toLower s = s

/-- A conversion that does what is documented. -/
def Strings.plain : Strings where
  toLower s := String.ofList (s.toList.map Char.toLower)

theorem Strings.documented_plain :
  Strings.plain.Documented
  := by
  constructor
  intro s hs
  have hmap : s.toList.map Char.toLower = s.toList := by
    apply (map_congr_left _).trans (map_id _)
    intro c hc
    rcases hs c hc with hlower | rfl
    · unfold Char.toLower
      split_ifs with hupper
      · have hge := of_decide_eq_true (Bool.and_eq_true_iff.mp hlower).1
        have hle := UInt32.le_iff_toNat_le.mp hge
        have hge := UInt32.le_iff_toNat_le.mp hupper.2
        simp at hle hge
        omega
      · rfl
    · rfl
  simp only [plain, hmap, String.ofList_toList]

/-- The number of 16-bit units of a character. -/
def units (c : Char) : ℕ := if c.toNat < 65536 then 1 else 2

/-- `QString::size`. -/
def size (cs : List Char) : ℕ := (cs.map units).sum

/-! ### Types -/

/-- The types of variables. -/
inductive VariableType where
  | invalid
  | regExp
  | string
  | stringList
  | int
  | boolean
  deriving DecidableEq, Repr

namespace VariableType

/-- `Type::toString`. -/
def toString : VariableType → String
  | .regExp => "regexp"
  | .string => "string"
  | .stringList => "string_list"
  | .int => "int"
  | .boolean => "boolean"
  | .invalid => "invalid"

/-- `Type::fromString`. -/
def fromString (qt : Strings) (type : String) : VariableType :=
  let t := qt.toLower type
  if t = "regexp" then .regExp
  else if t = "string" then .string
  else if t = "string_list" then .stringList
  else if t = "int" then .int
  else if t = "boolean" then .boolean
  else .invalid

theorem toString_ne (t : VariableType) :
  t.toString ≠ ""
  := by
  cases t <;> decide

theorem fromString_toString {qt : Strings} (hqt : qt.Documented) (t : VariableType) :
  fromString qt t.toString = t
  := by
  have hlower : qt.toLower t.toString = t.toString := by
    apply hqt.toLower_of_isLower
    cases t <;> decide
  rw [fromString, hlower]
  cases t <;> rfl

end VariableType

/-! ### Variables -/

/-- `ProgramVariable`. -/
structure ProgramVariable where
  name : String
  action : String
  description : String
  type : VariableType
  intMin : String
  intMax : String
  stringValidation : String
  stringListVals : List String
  deriving DecidableEq, Repr

namespace ProgramVariable

/-- The constructor of a variable. -/
def new (name action description : String) : ProgramVariable where
  name := name
  action := action
  description := description
  type := .regExp
  intMin := ""
  intMax := ""
  stringValidation := ""
  stringListVals := []

/-- The default constructor. -/
def none : ProgramVariable := { new "" "" "" with type := .invalid }

/-- `setType`. -/
def setType (qt : Strings) (v : ProgramVariable) (type : String) : ProgramVariable :=
  { v with type := .fromString qt type }

/-- `setIntMinimum`. -/
def setIntMinimum (v : ProgramVariable) (min : Int) : ProgramVariable :=
  { v with intMin := min.repr }

/-- `setIntMaximum`. -/
def setIntMaximum (v : ProgramVariable) (max : Int) : ProgramVariable :=
  { v with intMax := max.repr }

/-- `setStringValidation`. -/
def setStringValidation (v : ProgramVariable) (validation : String) : ProgramVariable :=
  { v with stringValidation := validation }

/-- `intRange`. -/
def intRange (v : ProgramVariable) : String :=
  if v.intMin ≠ "" ∨ v.intMax ≠ "" then v.intMin ++ ":" ++ v.intMax else ""

/-- The minimum of a text, if it is a number. -/
def setMinimumFrom (v : ProgramVariable) (min : List Char) : ProgramVariable :=
  ((toInt? (String.ofList min)).map v.setIntMinimum).getD v

/-- The maximum of a text, if it is a number. -/
def setMaximumFrom (v : ProgramVariable) (max : List Char) : ProgramVariable :=
  ((toInt? (String.ofList max)).map v.setIntMaximum).getD v

/-- `setIntRangeFromString`, without the result that nobody looks at.  The maximum is set
first, and when it is no number the minimum is not set. -/
def setIntRangeFromString (v : ProgramVariable) (range : String) :
    ProgramVariable :=
  match range.toList with
  | ':' :: max => v.setMaximumFrom max
  | cs =>
      if cs.getLast? = some ':' then v.setMinimumFrom cs.dropLast
      else
        match cs.splitOn ':' with
        | [min, max] =>
            if (toInt? (String.ofList max)).isSome then
              (v.setMaximumFrom max).setMinimumFrom min
            else v
        | _ => v

/-- `stringListAsString`. -/
def stringListAsString (v : ProgramVariable) : String :=
  ";" ++ ";".intercalate v.stringListVals ++ ";"

/-- The first and the last 16-bit unit are the same.  A character of two units has two
different ones, of which the first is no last unit and the last no first one. -/
def sameEnds (cs : List Char) : Bool := cs.head? == cs.getLast? && cs.head?.any (units · == 1)

/-- The list that `setStringListFromString` sets. -/
def stringListOf (list : String) : List String :=
  match list.toList with
  | [] => []
  | c :: cs =>
      if 2 < size (c :: cs) ∧ ¬ sameEnds (c :: cs) then [list]
      else if 2 < size (c :: cs) then (cs.dropLast.splitOn c).map String.ofList
      else []

/-- `setStringListFromString`. -/
def setStringListFromString (v : ProgramVariable) (list : String) : ProgramVariable :=
  { v with stringListVals := stringListOf list }

/-- `validate` for a number. -/
def validateInt (v : ProgramVariable) (value : Int) : Bool :=
  if v.type = .int then
    !(v.intMin ≠ "" && ((toInt? v.intMin).map (decide <| value < ·)).getD true) &&
      !(v.intMax ≠ "" && ((toInt? v.intMax).map (decide <| value > ·)).getD true)
  else false

/-- `validate`. -/
def validate (re : RegExp) (v : ProgramVariable) (value : String) : Bool :=
  match v.type with
  | .regExp =>
      re.isValid value && (v.stringValidation == "" || re.exactMatch v.stringValidation value)
  | .string => v.stringValidation == "" || re.exactMatch v.stringValidation value
  | .stringList => v.stringListVals.contains value
  | .int => ((toInt? value).map (v.validateInt)).getD false
  | .boolean => true
  | .invalid => false

end ProgramVariable

/-! ### Elements -/

/-- The variable of an element. -/
def variableOf (qt : Strings) (e : Dom) : ProgramVariable :=
  let v := ProgramVariable.new (e.attr "name") (e.attr "action") (e.attr "description")
  let v := if e.attr "type" ≠ "" then v.setType qt (e.attr "type") else v
  let v := if e.attr "validation" ≠ "" then v.setStringValidation (e.attr "validation") else v
  let v := if e.attr "range" ≠ "" then v.setIntRangeFromString (e.attr "range") else v
  if e.attr "list" ≠ "" then v.setStringListFromString (e.attr "list") else v

/-- The attribute for the data of the type of a variable. -/
def typeAttributes (v : ProgramVariable) : List (String × String) :=
  match v.type with
  | .regExp | .string => [("validation", v.stringValidation)]
  | .int => [("range", v.intRange)]
  | .stringList => [("list", v.stringListAsString)]
  | .boolean | .invalid => []

/-- The element of a variable. -/
def variableElement (v : ProgramVariable) : Dom :=
  .element "variable"
    ([("description", v.description), ("action", v.action), ("name", v.name),
      ("type", v.type.toString)] ++ typeAttributes v) []

/-! ### Reading what was written -/

namespace ProgramVariable

variable {v : ProgramVariable}

/-- The text of a bound is empty, or that of a number. -/
def IsBound (s : String) : Prop := s = "" ∨ ∃ n, IsInt n ∧ s = n.repr

/-- What every variable that was read is like. -/
structure WellFormed (v : ProgramVariable) : Prop where
  intMin : IsBound v.intMin
  intMax : IsBound v.intMax
  stringListVals : v.stringListVals ≠ [""]

/-- The variable that is read from the element of a variable. -/
def reread (v : ProgramVariable) : ProgramVariable :=
  let v' := { new v.name v.action v.description with type := v.type }
  match v.type with
  | .regExp | .string => { v' with stringValidation := v.stringValidation }
  | .int => { v' with intMin := v.intMin, intMax := v.intMax }
  | .stringList => { v' with stringListVals := stringListOf v.stringListAsString }
  | .boolean | .invalid => v'

/-- The separator of the strings occurs in none of them. -/
def Writable (v : ProgramVariable) : Prop :=
  v.type = .stringList → ∀ s ∈ v.stringListVals, ';' ∉ s.toList

/-- The variables have the same name, action, description and type, and accept the same
values. -/
structure SameVariable (re : RegExp) (v v' : ProgramVariable) : Prop where
  name : v.name = v'.name
  action : v.action = v'.action
  description : v.description = v'.description
  type : v.type = v'.type
  validate : ∀ value, v.validate re value = v'.validate re value

/-! #### Lists of strings -/

theorem size_eq_zero_iff {cs : List Char} :
  size cs = 0 ↔ cs = []
  := by
  cases cs with
  | nil => simp [size]
  | cons c cs =>
    have hunits : 0 < units c := by
      unfold units
      split_ifs <;> omega
    simp only [size, map_cons, sum_cons, reduceCtorEq, iff_false]
    omega

/-- The characters between the separators at the two ends. -/
theorem stringListOf_stringListAsString (v : ProgramVariable) :
  stringListOf v.stringListAsString =
    let inner := [';'].intercalate (v.stringListVals.map String.toList)
    if inner = [] then [] else (inner.splitOn ';').map String.ofList
  := by
  have ht : v.stringListAsString.toList =
      ';' :: ([';'].intercalate (v.stringListVals.map String.toList) ++ [';']) := by
    simp [stringListAsString, String.toList_intercalate]
  dsimp only
  generalize [';'].intercalate (v.stringListVals.map String.toList) = inner at ht ⊢
  have hends : sameEnds (';' :: (inner ++ [';'])) := by
    simp [sameEnds, List.getLast?_cons, units]
  have hs : 2 < size (';' :: (inner ++ [';'])) ↔ inner ≠ [] := by
    have hpos := @size_eq_zero_iff inner
    have hsemi : units ';' = 1 := rfl
    simp only [size, map_cons, sum_cons, map_append, sum_append, map_nil, sum_nil, hsemi] at hpos ⊢
    rw [← not_iff_not, not_not, ← hpos]
    omega
  rw [stringListOf, ht]
  simp only [hends, not_true, and_false, if_false, hs, dropLast_concat]
  split_ifs <;> simp_all

/-- There is no separator in what it separates. -/
theorem not_mem_of_mem_splitOn {x : Char} {xs l : List Char} (h : l ∈ xs.splitOn x) :
  x ∉ l
  := by
  induction xs generalizing l with
  | nil =>
    rw [splitOn_nil, mem_singleton] at h
    simp [h]
  | cons y ys ih =>
    rw [splitOn_cons_eq_if_modifyHead] at h
    split_ifs at h with hy
    · rcases mem_cons.mp h with rfl | h
      · simp
      · apply ih h
    · rcases hsp : ys.splitOn x with _ | ⟨l', ls⟩
      · rw [hsp] at h
        cases h
      · rw [hsp] at h ih
        rcases mem_cons.mp h with rfl | h
        · have hne : x ≠ y := by
            rintro rfl
            simp at hy
          rw [mem_cons, not_or]
          exact ⟨hne, ih mem_cons_self⟩
        · apply ih (mem_cons_of_mem _ h)

/-- A list of strings is read as it was written exactly when the separator occurs in none of
them. -/
theorem mem_stringListOf_iff (h : v.stringListVals ≠ [""]) :
  (∀ s, s ∈ stringListOf v.stringListAsString ↔ s ∈ v.stringListVals) ↔
    ∀ s ∈ v.stringListVals, ';' ∉ s.toList
  := by
  rw [stringListOf_stringListAsString]
  constructor
  · intro hsame s hs
    have hs' := (hsame s).mpr hs
    dsimp only at hs'
    split_ifs at hs'
    · cases hs'
    · obtain ⟨l, hl, rfl⟩ := mem_map.mp hs'
      rw [String.toList_ofList]
      apply not_mem_of_mem_splitOn hl
  · intro hfree
    have hlists : ∀ l ∈ v.stringListVals.map String.toList, ';' ∉ l := by
      simpa using hfree
    have heq : stringListOf v.stringListAsString = v.stringListVals := by
      rw [stringListOf_stringListAsString]
      dsimp only
      rcases hvals : v.stringListVals with _ | ⟨s, l⟩
      · rfl
      · have hne : v.stringListVals.map String.toList ≠ [] := by simp [hvals]
        have hsp := splitOn_intercalate ';' hlists hne
        rw [← hvals]
        split_ifs with hinner
        · rw [hinner, splitOn_nil] at hsp
          apply absurd _ h
          have hmap := congrArg (List.map String.ofList) hsp
          simpa [Function.comp_def] using hmap.symm
        · rw [hsp]
          simp [Function.comp_def]
    rw [← stringListOf_stringListAsString, heq]
    simp

/-! #### Ranges -/

theorem colon_not_mem_repr (n : Int) :
  ':' ∉ n.repr.toList
  := by
  have hnat : ∀ m : ℕ, ':' ∉ m.repr.toList := by
    intro m hm
    rw [Nat.repr_eq_ofList_toDigits, String.toList_ofList] at hm
    have hdig := Nat.isDigit_of_mem_toDigits (by omega) (by omega) hm
    cases hdig
  rw [Int.repr_eq_if]
  split_ifs
  · simpa using hnat _
  · simpa using hnat _

theorem repr_ne_empty (n : Int) :
  n.repr ≠ ""
  := by
  rw [Int.repr_eq_if]
  split_ifs
  · apply Nat.repr_ne_empty
  · simp

/-- A range that is not empty is read as it was written. -/
theorem setIntRangeFromString_intRange {w : ProgramVariable} (h : v.WellFormed)
    (hrg : v.intRange ≠ "") (hmin : w.intMin = "") (hmax : w.intMax = "") :
  w.setIntRangeFromString v.intRange = { w with intMin := v.intMin, intMax := v.intMax }
  := by
  rcases h.intMin with hemp | ⟨n, hn, hmin'⟩
  · rcases h.intMax with hemp' | ⟨m, hm, hmax'⟩
    · simp [intRange, hemp, hemp'] at hrg
    · have ht : v.intRange.toList = ':' :: m.repr.toList := by
        simp [intRange, hemp, hmax', repr_ne_empty]
      rw [setIntRangeFromString, ht]
      simp [setMaximumFrom, toInt?_repr hm, setIntMaximum, hemp, hmax', hmin]
  · have hcolon := colon_not_mem_repr n
    have ht : v.intRange.toList = n.repr.toList ++ ':' :: v.intMax.toList := by
      simp [intRange, hmin', repr_ne_empty]
    have hhead : ∀ max, n.repr.toList ++ ':' :: v.intMax.toList ≠ ':' :: max := by
      rcases hlist : n.repr.toList with _ | ⟨c, l⟩
      · apply absurd (String.toList_eq_nil_iff.mp hlist) (repr_ne_empty n)
      · rintro max heq
        rw [hlist] at hcolon
        cases heq
        simp at hcolon
    rw [setIntRangeFromString, ht]
    split
    · next max heq => apply absurd heq (hhead max)
    · rcases h.intMax with hemp' | ⟨m, hm, hmax'⟩
      · simp [hemp', setMinimumFrom, toInt?_repr hn, setIntMinimum, hmin', hmax]
      · have hcolon' := colon_not_mem_repr m
        have hl : (n.repr.toList ++ ':' :: m.repr.toList).getLast? ≠ some ':' := by
          intro hl
          have hne : m.repr.toList ≠ [] :=
            fun heq => repr_ne_empty m (String.toList_eq_nil_iff.mp heq)
          rw [List.getLast?_append_of_ne_nil _ (cons_ne_nil _ _),
            List.getLast?_cons_of_ne_nil hne] at hl
          apply hcolon' (mem_of_getLast? hl)
        have hsp : (n.repr.toList ++ ':' :: m.repr.toList).splitOn ':' =
            [n.repr.toList, m.repr.toList] := by
          rw [splitOn_append_cons_self_of_not_mem hcolon, splitOn_eq_singleton hcolon']
        rw [hmax', if_neg hl, hsp]
        simp [toInt?_repr hm, toInt?_repr hn, setMinimumFrom, setMaximumFrom,
          setIntMinimum, setIntMaximum, hmin']

/-! #### Variables -/

/-- A variable that was written is read with the data of its type. -/
theorem variableOf_variableElement {qt : Strings} (hqt : qt.Documented) (h : v.WellFormed) :
  variableOf qt (variableElement v) = v.reread
  := by
  have ht := VariableType.fromString_toString hqt v.type
  have hne := v.type.toString_ne
  cases hcase : v.type
  all_goals
    rw [hcase] at ht hne
    simp [variableOf, variableElement, typeAttributes, hcase, Dom.attr, Dom.attrD,
      lookup_cons, reread, setType, ht, hne]
  case regExp | string =>
    split_ifs with hemp
    · rw [hemp]
      rfl
    · rfl
  case stringList =>
    have hlist : v.stringListAsString ≠ "" := by simp [stringListAsString]
    rw [if_neg hlist]
    rfl
  case int =>
    split_ifs with hrg
    · have hbds : v.intMin = "" ∧ v.intMax = "" := by
        simpa [intRange, or_imp] using hrg
      rw [hbds.1, hbds.2]
      rfl
    · apply setIntRangeFromString_intRange h hrg rfl rfl

/-! #### What is read is well formed -/

theorem WellFormed.setMinimumFrom (h : v.WellFormed) (min : List Char) :
  (v.setMinimumFrom min).WellFormed
  := by
  rcases hmin : toInt? (String.ofList min) with _ | n
  · simpa [ProgramVariable.setMinimumFrom, hmin] using h
  · have hn := isInt_of_toInt? hmin
    simp only [ProgramVariable.setMinimumFrom, hmin, Option.map_some, Option.getD_some]
    exact ⟨.inr ⟨n, hn, rfl⟩, h.intMax, h.stringListVals⟩

theorem WellFormed.setMaximumFrom (h : v.WellFormed) (max : List Char) :
  (v.setMaximumFrom max).WellFormed
  := by
  rcases hmax : toInt? (String.ofList max) with _ | n
  · simpa [ProgramVariable.setMaximumFrom, hmax] using h
  · have hn := isInt_of_toInt? hmax
    simp only [ProgramVariable.setMaximumFrom, hmax, Option.map_some, Option.getD_some]
    exact ⟨h.intMin, .inr ⟨n, hn, rfl⟩, h.stringListVals⟩

theorem WellFormed.setIntRangeFromString (h : v.WellFormed) (range : String) :
  (v.setIntRangeFromString range).WellFormed
  := by
  unfold ProgramVariable.setIntRangeFromString
  split
  · apply h.setMaximumFrom
  · split_ifs
    · apply h.setMinimumFrom
    · split
      · split_ifs
        · apply (h.setMaximumFrom _).setMinimumFrom
        · apply h
      · apply h

/-- No list is read that consists of the empty string. -/
theorem stringListOf_ne (list : String) :
  stringListOf list ≠ [""]
  := by
  unfold stringListOf
  split
  · simp
  · next c cs hlist =>
    split_ifs with hends hs
    · rw [Ne, List.cons.injEq, not_and_or]
      left
      rintro rfl
      simp at hlist
    · intro heq
      have hsp : cs.dropLast.splitOn c = [[]] := by
        have hmap := congrArg (List.map String.toList) heq
        simpa [Function.comp_def] using hmap
      have hinner := @List.intercalate_splitOn _ cs.dropLast _ _ c
      rw [hsp] at hinner
      have hsame : sameEnds (c :: cs) := by
        by_contra hnot
        apply hends ⟨hs, hnot⟩
      rcases cs with _ | ⟨x, _ | ⟨y, cs⟩⟩
      · simp only [size, units, map_cons, map_nil, sum_cons, sum_nil] at hs
        split_ifs at hs <;> omega
      · simp only [sameEnds, List.head?_cons, List.getLast?_cons_cons, List.getLast?_singleton,
          Bool.and_eq_true, beq_iff_eq, Option.some.injEq, Option.any_some] at hsame
        obtain ⟨rfl, hunits⟩ := hsame
        simp [size, hunits] at hs
      · simp at hinner
    · simp

/-- What was read is well formed. -/
theorem wellFormed_variableOf (qt : Strings) (e : Dom) :
  (variableOf qt e).WellFormed
  := by
  have hnew : ∀ name action description, (new name action description).WellFormed :=
    fun _ _ _ => ⟨.inl rfl, .inl rfl, by simp [new]⟩
  have hset : ∀ {c : Prop} [Decidable c] {v v' : ProgramVariable}, v.WellFormed →
      (v.WellFormed → v'.WellFormed) → (if c then v' else v).WellFormed := by
    intro c _ v v' hv hv'
    split_ifs
    · apply hv' hv
    · apply hv
  unfold variableOf
  apply hset
  · apply hset
    · apply hset
      · apply hset
        · apply hnew
        · exact fun h => ⟨h.intMin, h.intMax, h.stringListVals⟩
      · exact fun h => ⟨h.intMin, h.intMax, h.stringListVals⟩
    · exact fun h => h.setIntRangeFromString _
  · exact fun h => ⟨h.intMin, h.intMax, stringListOf_ne _⟩

theorem wellFormed_reread {qt : Strings} (hqt : qt.Documented) (h : v.WellFormed) :
  v.reread.WellFormed
  := by
  rw [← variableOf_variableElement hqt h]
  apply wellFormed_variableOf

/-- A variable is the same after it was written and read exactly when the separator of the
strings does not occur in them. -/
theorem sameVariable_reread_iff {re : RegExp} (h : v.WellFormed) :
  SameVariable re v v.reread ↔ v.Writable
  := by
  have hfld : v.reread.name = v.name ∧ v.reread.action = v.action ∧
      v.reread.description = v.description ∧ v.reread.type = v.type := by
    unfold reread
    cases v.type <;> exact ⟨rfl, rfl, rfl, rfl⟩
  obtain ⟨hn, hact, hdescription, ht⟩ := hfld
  have hiff : SameVariable re v v.reread ↔
      ∀ value, v.validate re value = v.reread.validate re value :=
    ⟨fun hsame => hsame.validate,
      fun hvalidate => ⟨hn.symm, hact.symm, hdescription.symm, ht.symm, hvalidate⟩⟩
  rw [hiff]
  by_cases hlist : v.type = .stringList
  · rw [Writable, ← mem_stringListOf_iff h.stringListVals]
    simp only [hlist, forall_const]
    apply forall_congr'
    intro value
    rw [validate, validate, ht, hlist]
    have hvals : v.reread.stringListVals = stringListOf v.stringListAsString := by
      simp [reread, hlist]
    dsimp only
    rw [hvals, Bool.eq_iff_iff, contains_iff_mem, contains_iff_mem]
    apply iff_comm
  · have hwr : v.Writable := fun ht => absurd ht hlist
    refine iff_of_true ?_ hwr
    intro value
    rw [validate, validate, ht]
    cases hcase : v.type
    case stringList => contradiction
    case int =>
      have hint : v.reread.validateInt = v.validateInt := by
        funext n
        simp [validateInt, reread, hcase]
      simp only [hint]
    all_goals simp [reread, hcase]

theorem writable_reread (h : v.WellFormed) (hwr : v.Writable) :
  v.reread.Writable
  := by
  by_cases hlist : v.type = .stringList
  · have hvals : v.reread.stringListVals = stringListOf v.stringListAsString := by
      simp [reread, hlist]
    intro _ s hs
    rw [hvals, (mem_stringListOf_iff h.stringListVals).mpr (hwr hlist)] at hs
    apply hwr hlist s hs
  · intro ht
    apply absurd _ hlist
    rw [← ht]
    unfold reread
    cases v.type <;> rfl

theorem reread_names (v : ProgramVariable) :
  v.reread.name = v.name ∧ v.reread.action = v.action
  := by
  unfold reread
  cases v.type <;> exact ⟨rfl, rfl⟩

theorem setIntRangeFromString_names (v : ProgramVariable) (range : String) :
  (v.setIntRangeFromString range).name = v.name ∧
    (v.setIntRangeFromString range).action = v.action
  := by
  have hmin : ∀ (v : ProgramVariable) min, (v.setMinimumFrom min).name = v.name ∧
      (v.setMinimumFrom min).action = v.action := by
    intro v min
    unfold ProgramVariable.setMinimumFrom
    cases toInt? (String.ofList min) <;> exact ⟨rfl, rfl⟩
  have hmax : ∀ (v : ProgramVariable) max, (v.setMaximumFrom max).name = v.name ∧
      (v.setMaximumFrom max).action = v.action := by
    intro v max
    unfold ProgramVariable.setMaximumFrom
    cases toInt? (String.ofList max) <;> exact ⟨rfl, rfl⟩
  unfold ProgramVariable.setIntRangeFromString
  split
  · apply hmax
  · split_ifs
    · apply hmin
    · split
      · split_ifs
        · simp [hmin, hmax]
        · exact ⟨rfl, rfl⟩
      · exact ⟨rfl, rfl⟩

end ProgramVariable

theorem variableOf_names (qt : Strings) (e : Dom) :
  (variableOf qt e).name = e.attr "name" ∧ (variableOf qt e).action = e.attr "action"
  := by
  have hset : ∀ {c : Prop} [Decidable c] {v v' : ProgramVariable},
      v.name = e.attr "name" ∧ v.action = e.attr "action" →
      v'.name = v.name ∧ v'.action = v.action →
      (if c then v' else v).name = e.attr "name" ∧
        (if c then v' else v).action = e.attr "action" := by
    rintro c _ v v' ⟨hn, hact⟩ ⟨hn', hact'⟩
    split_ifs
    · rw [hn', hact', hn, hact]
      exact ⟨rfl, rfl⟩
    · exact ⟨hn, hact⟩
  unfold variableOf
  apply hset
  · apply hset
    · apply hset
      · apply hset
        · exact ⟨rfl, rfl⟩
        · exact ⟨rfl, rfl⟩
      · exact ⟨rfl, rfl⟩
    · apply ProgramVariable.setIntRangeFromString_names
  · exact ⟨rfl, rfl⟩

end Policy
