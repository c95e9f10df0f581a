import Contextd.Librecompare.Nullability

/-!
# The expressions that come from patterns

Expressions come from parsed patterns, and from other expressions by `append`, `prepend`, `operator
|=` and derivation (`Built`).  A logical or and ε are the only transition of their expression and
have no operator (`Tidy`).  So the laws hold where no logical or stands between them, and where
alternatives can be told apart by what they print (`laws`).
-/

open Computability

namespace Librecompare

open List

/-! ### Merging -/

section Merging

variable {ρ : Type} {or : ρ → ρ → ρ}

/-- Splitting two derivations of a kind leaves only derivations of the kind. -/
def SplitKeeps (or : ρ → ρ → ρ) (P : Derivation ρ → Prop) : Prop :=
  ∀ d d2, P d → P d2 → P (split or d d2).d ∧ P (split or d d2).d2 ∧
    (∀ x ∈ (split or d d2).d3, P x) ∧ ∀ x ∈ (split or d d2).d4, P x

variable {P : Derivation ρ → Prop}

theorem forall_nonEmpty {d : Derivation ρ} (hd : P d) :
  ∀ x ∈ nonEmpty d, P x
  := by
  intro x hx
  unfold nonEmpty at hx
  split_ifs at hx
  · cases hx
  · rwa [mem_singleton.mp hx]

/-- Merging keeps what splitting keeps. -/
theorem SplitKeeps.mergeLoop (hsp : SplitKeeps or P) {existing : List (Derivation ρ)}
    {d : Derivation ρ} {m : Merged ρ} (hex : ∀ x ∈ existing, P x) (hd : P d)
    (hder : ∀ x ∈ m.deriv, P x) (hlat : ∀ x ∈ m.later, P x) :
  (∀ x ∈ (Librecompare.mergeLoop or existing d m).deriv, P x) ∧
    ∀ x ∈ (Librecompare.mergeLoop or existing d m).later, P x
  := by
  induction existing generalizing d m with
  | nil =>
    refine ⟨?_, hlat⟩
    intro x hx
    rcases mem_append.mp hx with hx | hx
    · apply hder x hx
    · apply forall_nonEmpty hd x hx
  | cons d2 existing ih =>
    rw [Librecompare.mergeLoop]
    split_ifs
    · refine ⟨?_, hlat⟩
      intro x hx
      rcases mem_append.mp hx with hx | hx
      · apply hder x hx
      · apply hex x (mem_reverse.mp hx)
    · obtain ⟨hd2, hex⟩ := forall_mem_cons.mp hex
      obtain ⟨hsd, hsd2, hsd3, hsd4⟩ := hsp d d2 hd hd2
      apply ih hex hsd
      · intro x hx
        simp only [mem_append] at hx
        rcases hx with hx | hx | hx
        · apply hder x hx
        · apply hsd3 x hx
        · apply forall_nonEmpty hsd2 x hx
      · intro x hx
        rcases mem_append.mp hx with hx | hx
        · apply hlat x hx
        · apply hsd4 x hx

/-- Merging keeps derivations of a kind, if splitting does. -/
theorem SplitKeeps.mergeAll (hsp : SplitKeeps or P) (n : ℕ) {deriv tokenDeriv : List (Derivation ρ)}
    (hder : ∀ x ∈ deriv, P x) (htok : ∀ x ∈ tokenDeriv, P x) :
  ∀ x ∈ Librecompare.mergeAll or n deriv tokenDeriv, P x
  := by
  induction n generalizing deriv tokenDeriv with
  | zero => simpa [Librecompare.mergeAll] using hder
  | succ n ih =>
    rcases tokenDeriv with _ | ⟨d, tokenDeriv⟩
    · simpa [Librecompare.mergeAll] using hder
    · obtain ⟨hd, htok⟩ := forall_mem_cons.mp htok
      have hmerge : (∀ x ∈ (merge or deriv d).deriv, P x) ∧
          ∀ x ∈ (merge or deriv d).later, P x := by
        unfold merge
        split_ifs
        · apply hsp.mergeLoop _ hd (by simp) (by simp)
          intro x hx
          apply hder x (mem_reverse.mp hx)
        · exact ⟨hder, by simp⟩
        · exact ⟨by simpa using hd, by simp⟩
      rw [Librecompare.mergeAll]
      apply ih hmerge.1
      intro x hx
      rcases mem_append.mp hx with hx | hx
      · apply htok x hx
      · apply hmerge.2 x hx

/-- The expressions of two derivations stay of a kind, if joining keeps it. -/
theorem splitKeeps_expr {P : ρ → Prop} (hor : ∀ a b, P a → P b → P (or a b)) :
  SplitKeeps or (fun d => P d.expr)
  := by
  intro d d2 hd hd2
  have hj := hor _ _ hd hd2
  have hj' := hor _ _ hd2 hd
  unfold split
  split
  · unfold splitBracket
    split
    · dsimp only
      split_ifs
      · exact ⟨hd, hd2, by simp, by simp⟩
      · exact ⟨hd, hd2, by simpa using hj, by simp⟩
    · exact ⟨hd, hd2, forall_nonEmpty hj, by simp⟩
    · exact ⟨hj, hd2, by simp, by simp⟩
    · exact ⟨hd, hd2, by simp, by simp⟩
  · unfold splitExclude
    split
    · exact ⟨hd, hd2, forall_nonEmpty hj, by simp⟩
    · exact ⟨hd, hd2, by simpa using hj, forall_nonEmpty hd⟩
    · exact ⟨hj, hd2, by simp, by simp⟩
    · exact ⟨hd, hd2, by simp, by simp⟩
  · unfold splitAny
    split
    · exact ⟨hd, hj', by simp, by simpa using hd⟩
    · exact ⟨hd, hj', by simp, by simpa using hd⟩
    · exact ⟨hd, hj', by simp, by simp⟩
    · exact ⟨hd, hd2, by simp, by simp⟩
  · exact ⟨hd, hd2, by simp, by simp⟩

end Merging

namespace RegExp

variable {pattern : List Char} {ts : List (Transition RegExp)} {t : Transition RegExp}

/-! ### Tidy expressions -/

/-- A transition that is neither a logical or nor ε. -/
def IsSimple (t : Transition RegExp) : Prop := t.type ≠ .logicalOr ∧ t.type ≠ .epsilon

/-- A logical or and ε are alone, also in the expressions inside. -/
inductive Tidy : RegExp → Prop
  | intro (e : RegExp) (alone : e.Alone) (inside : ∀ t ∈ e.transitions, ∀ s ∈ t.subExprs, Tidy s) :
      Tidy e

variable {qt : Qt} {a b e : RegExp}

theorem Tidy.alone (h : e.Tidy) :
  e.Alone
  := by
  cases h with
  | intro _ halone _ => apply halone

theorem Tidy.inside (h : e.Tidy) :
  ∀ t ∈ e.transitions, ∀ s ∈ t.subExprs, Tidy s
  := by
  cases h with
  | intro _ _ hin => apply hin

/-- Simple transitions with tidy expressions make a tidy one. -/
theorem tidy_of_simple (hsimp : ∀ t ∈ e.transitions, IsSimple t)
    (hin : ∀ t ∈ e.transitions, ∀ s ∈ t.subExprs, Tidy s) :
  e.Tidy
  := by
  refine ⟨e, ?_, hin⟩
  intro t ht htype
  rcases htype with htype | htype
  · apply absurd htype (hsimp t ht).1
  · apply absurd htype (hsimp t ht).2

theorem tidy_epsilon :
  epsilon.Tidy
  := by
  refine ⟨_, ?_, ?_⟩
  · intro t ht _
    rw [mem_singleton.mp ht]
    exact ⟨rfl, rfl⟩
  · intro t ht
    rw [mem_singleton.mp ht]
    simp [epsilonTransition]

/-- A logical or of tidy expressions is tidy. -/
theorem tidy_logicalOr {es : List RegExp} (h : ∀ e ∈ es, Tidy e) :
  (logicalOr es).Tidy
  := by
  refine ⟨_, ?_, ?_⟩
  · intro t ht _
    rw [mem_singleton.mp ht]
    exact ⟨rfl, rfl⟩
  · intro t ht
    rw [mem_singleton.mp ht]
    apply h

theorem Tidy.alternatives (h : e.Tidy) :
  ∀ s ∈ e.alternatives, Tidy s
  := by
  intro s hs
  rcases hor : e.isOr with _ | _
  · rw [alternatives_of_not_isOr hor, mem_singleton] at hs
    rwa [hs]
  · obtain ⟨data, hts⟩ := h.alone.exists_or hor
    apply h.inside _ (by rw [hts]; apply mem_singleton_self) s hs

/-- `operator |=` keeps expressions tidy. -/
theorem Tidy.or (hsort : ∀ es, (qt.qSort es).Perm es) (ha : a.Tidy) (hb : b.Tidy) :
  (a.or qt b).Tidy
  := by
  unfold RegExp.or
  split_ifs
  any_goals assumption
  apply tidy_logicalOr
  intro e he
  have he := (hsort _).mem_iff.mp ((removeDuplicates_sublist _ _).subset he)
  rcases mem_append.mp he with he | he
  · apply ha.alternatives e he
  · apply hb.alternatives e he

theorem Tidy.simple_inside (h : e.Tidy) (hemp : e.isEmpty = false) (hor : e.isOr = false) :
  ∀ t ∈ e.transitions, IsSimple t ∧ ∀ s ∈ t.subExprs, Tidy s
  := fun t ht => ⟨h.alone.type_ne hemp hor ht, h.inside t ht⟩

theorem tidy_mk (h : ∀ t ∈ ts, IsSimple t ∧ ∀ s ∈ t.subExprs, Tidy s) :
  (mk pattern ts).Tidy
  := tidy_of_simple (fun t ht => (h t ht).1) fun t ht => (h t ht).2

/-- `append` keeps expressions tidy. -/
theorem Tidy.append (hsort : ∀ es, (qt.qSort es).Perm es) (ha : a.Tidy) (hb : b.Tidy) :
  (a.append qt b).Tidy
  := by
  unfold RegExp.append
  split_ifs with hea heb
  · apply hb
  · apply ha
  · split
    · next t bt bts ht hbts =>
      have hnb : b.isNull = false := by simp [isNull, hbts]
      have hea : a.isEmpty = false := by simpa [hnb] using hea
      have heb : b.isEmpty = false := by simpa using heb
      have hta := mem_of_getLast? ht
      have hbtype : bt.type = .logicalOr ↔ b.isOr = true := by simp [isOr, hbts]
      have hatype := ha.alone.getLast?_type ht
      split_ifs with htype hbt hbt
      · apply ha.or hsort hb
      · obtain ⟨data, hts⟩ := ha.alone.exists_or (hatype.mp htype)
        apply tidy_mk
        intro t' ht'
        rw [hts, ← hbts] at ht'
        simp only [dropLast_singleton, nil_append, mem_append, mem_singleton] at ht'
        rcases ht' with rfl | ht'
        · refine ⟨by simp [IsSimple], ?_⟩
          intro s hs
          rcases mem_append.mp hs with hs | hs
          · apply ha.inside t hta s hs
          · rwa [mem_singleton.mp hs]
        · apply hb.simple_inside heb (by simpa [hbt] using hbtype) t' ht'
      · have hor : a.isOr = false := by simpa [htype] using hatype
        obtain ⟨data, hts⟩ := hb.alone.exists_or (hbtype.mp hbt)
        rw [hbts] at hts
        cases hts
        apply tidy_mk
        intro t' ht'
        simp only [nil_append, mem_append, mem_singleton] at ht'
        apply ha.simple_inside hea hor t'
        rcases ht' with ht' | rfl
        · apply ht'
        · apply hta
      · have hor : a.isOr = false := by simpa [htype] using hatype
        apply tidy_mk
        intro t' ht'
        rw [← hbts] at ht'
        rcases mem_append.mp ht' with ht' | ht'
        · apply ha.simple_inside hea hor t' ht'
        · apply hb.simple_inside heb (by simpa [hbt] using hbtype) t' ht'
    · apply ha

/-- `prepend` keeps expressions tidy. -/
theorem Tidy.prepend (hsort : ∀ es, (qt.qSort es).Perm es) (ha : a.Tidy) (hb : b.Tidy) :
  (a.prepend qt b).Tidy
  := by
  unfold RegExp.prepend
  split_ifs with hea heb
  · apply hb
  · apply ha
  · split
    · next t ts bt hts hbt =>
      have hea : a.isEmpty = false := by
        have hnb : b.isNull = false := by
          rcases hnil : b.transitions with _ | ⟨t', ts'⟩
          · rw [hnil] at hbt
            cases hbt
          · simp [isNull, hnil]
        simpa [hnb] using hea
      have heb : b.isEmpty = false := by simpa using heb
      have hta : t ∈ a.transitions := by simp [hts]
      have hatype : t.type = .logicalOr ↔ a.isOr = true := by simp [isOr, hts]
      have hbtype := hb.alone.getLast?_type hbt
      split_ifs with htype hbor hbor
      · apply ha.or hsort hb
      · obtain ⟨data, hors⟩ := ha.alone.exists_or (hatype.mp htype)
        rw [hts] at hors
        obtain ⟨-, rfl⟩ := List.cons.inj hors
        apply tidy_mk
        intro t' ht'
        simp only [nil_append, mem_append, mem_singleton] at ht'
        rcases ht' with ht' | rfl
        · apply hb.simple_inside heb (by simpa [hbor] using hbtype) t' ht'
        · refine ⟨by simp [IsSimple], ?_⟩
          intro s hs
          rcases mem_append.mp hs with hs | hs
          · apply ha.inside t hta s hs
          · rwa [mem_singleton.mp hs]
      · have hor : a.isOr = false := by simpa [htype] using hatype
        obtain ⟨data, hors⟩ := hb.alone.exists_or (hbtype.mp hbor)
        apply tidy_mk
        intro t' ht'
        rw [hors] at ht'
        apply ha.simple_inside hea hor t'
        rw [hts]
        simpa using ht'
      · have hor : a.isOr = false := by simpa [htype] using hatype
        apply tidy_mk
        intro t' ht'
        rw [← hts] at ht'
        rcases mem_append.mp ht' with ht' | ht'
        · apply hb.simple_inside heb (by simpa [hbor] using hbtype) t' ht'
        · apply ha.simple_inside hea hor t' ht'
    · apply ha

/-! ### Derivations -/

theorem Alone.tail {pattern' : List Char} (h : (mk pattern (t :: ts)).Alone) :
  (mk pattern' ts).Alone
  := by
  intro t' ht' htype
  obtain ⟨heq, -⟩ := h t' (mem_cons_of_mem _ ht') htype
  obtain ⟨-, rfl⟩ := List.cons.inj heq
  cases ht'

theorem Tidy.tail {pattern' : List Char} (h : (mk pattern (t :: ts)).Tidy) :
  (mk pattern' ts).Tidy
  := ⟨_, h.alone.tail, fun t ht => h.inside t (mem_cons_of_mem _ ht)⟩

/-- What is read after a token of a tidy expression is tidy. -/
theorem Tidy.continuation (hsort : ∀ es, (qt.qSort es).Perm es) (h : (mk pattern (t :: ts)).Tidy)
    (oldPattern newPattern : List Char) :
  (continuation qt oldPattern newPattern t ts).Tidy
  := by
  unfold RegExp.continuation
  have hstar : t.op ≠ .concat →
      (mk (oldPattern ++ ['*']) [{ t with op := .kleeneStar }]).Tidy := by
    intro hop
    apply tidy_mk
    intro t' ht'
    obtain rfl := mem_singleton.mp ht'
    refine ⟨?_, h.inside t mem_cons_self⟩
    rw [IsSimple, ← not_or]
    intro htype
    apply hop (h.alone t mem_cons_self htype).2
  cases hop : t.op with
  | concat => apply h.tail
  | oneOrZero => apply h.tail
  | kleeneStar => apply (hstar (by simp [hop])).append hsort h.tail
  | oneOrMore => apply (hstar (by simp [hop])).append hsort h.tail

/-- The loop over the transitions gives tidy expressions. -/
theorem tidy_transitionsDerivations (hsort : ∀ es, (qt.qSort es).Perm es)
    {deriv : List (Derivation RegExp)} (h : (mk pattern ts).Tidy)
    (htok : ∀ t ∈ ts, ∀ d ∈ tokenDerivations qt t, d.expr.Tidy) (hder : ∀ d ∈ deriv, d.expr.Tidy) :
  ∀ d ∈ transitionsDerivations qt pattern ts deriv, d.expr.Tidy
  := by
  induction ts generalizing pattern deriv with
  | nil => rwa [transitionsDerivations]
  | cons t ts ih =>
    obtain ⟨ht, htok⟩ := forall_mem_cons.mp htok
    rw [transitionsDerivations]
    by_cases htype : t.type = .epsilon
    · rw [if_pos htype]
      apply hder
    · rw [if_neg htype]
      dsimp only
      have hr := h.continuation hsort (patternExtractStart pattern t).1
        (patternExtractStart pattern t).2
      generalize RegExp.continuation qt (patternExtractStart pattern t).1
        (patternExtractStart pattern t).2 t ts = rest at hr ⊢
      have hmrg : ∀ d ∈ mergeDerivations (RegExp.or qt) deriv
          ((tokenDerivations qt t).map fun d => { d with expr := d.expr.append qt rest }),
          d.expr.Tidy := by
        apply (splitKeeps_expr (fun a b ha hb => ha.or hsort hb)).mergeAll _ hder
        intro d hd
        obtain ⟨d', hd', rfl⟩ := mem_map.mp hd
        apply (ht d' hd').append hsort hr
      split_ifs
      · apply ih h.tail htok hmrg
      · apply hmrg

/-- The derivations of a tidy expression are tidy. -/
theorem Tidy.leftDerivations (hsort : ∀ es, (qt.qSort es).Perm es) (h : e.Tidy) :
  ∀ d ∈ e.leftDerivations qt, d.expr.Tidy
  := by
  induction h with
  | intro e halone hin ih =>
    rcases e with ⟨pattern, ts⟩
    rw [RegExp.leftDerivations]
    apply tidy_transitionsDerivations hsort ⟨_, halone, hin⟩ _ (by simp)
    rintro ⟨type, data, subExprs, op⟩ ht
    have hsub := ih _ ht
    have hall : ∀ es : List RegExp, (∀ s ∈ es, ∀ d ∈ s.leftDerivations qt, d.expr.Tidy) →
        ∀ d ∈ allDerivations qt es, d.expr.Tidy := by
      intro es
      induction es with
      | nil => simp [allDerivations]
      | cons s es ihes =>
        intro hes d hd
        obtain ⟨hs, hes⟩ := forall_mem_cons.mp hes
        rw [allDerivations] at hd
        rcases mem_append.mp hd with hd | hd
        · apply hs d hd
        · apply ihes hes d hd
    intro d hd
    unfold tokenDerivations at hd
    split at hd
    · rcases subExprs with _ | ⟨s, subExprs⟩
      · simp [firstDerivations] at hd
      · rw [firstDerivations] at hd
        apply hsub s mem_cons_self d hd
    · apply hall subExprs hsub d hd
    · rw [mem_singleton.mp hd]
      apply tidy_epsilon
    · rw [mem_singleton.mp hd]
      apply tidy_epsilon

/-! ### Parsing -/

/-- The transitions found by the parser are simple, and so is the current one, unless it is that
of a logical or, which is the last. -/
structure ScanTidy (s : Scan) : Prop where
  transitions : ∀ t ∈ s.transitions, IsSimple t ∧ ∀ e ∈ t.subExprs, Tidy e
  inside : ∀ e ∈ s.current.subExprs, Tidy e
  current : IsSimple s.current ∨ s.transitions = [] ∧ s.data = [] ∧ s.current.op = .concat

variable {s : Scan}

theorem ScanTidy.start (data : List Char) :
  ScanTidy (.start data)
  := ⟨by simp [Scan.start], by simp [Scan.start], .inl (by simp [Scan.start, IsSimple])⟩

/-- What is scanned is tidy. -/
theorem ScanTidy.flushed (h : ScanTidy s) (pattern : List Char) :
  (RegExp.mk pattern s.flushed).Tidy
  := by
  rw [Scan.flushed]
  by_cases hfd : s.foundToken = true
  · rw [if_pos hfd]
    rcases h.current with hsimp | ⟨hnil, -, hop⟩
    · apply tidy_mk
      intro t ht
      rcases mem_append.mp ht with ht | ht
      · apply h.transitions t ht
      · rw [mem_singleton.mp ht]
        exact ⟨hsimp, h.inside⟩
    · rw [hnil, nil_append]
      refine ⟨_, ?_, ?_⟩
      · intro t ht _
        obtain rfl := mem_singleton.mp ht
        refine ⟨rfl, ?_⟩
        simp [hop]
      · intro t ht
        obtain rfl := mem_singleton.mp ht
        apply h.inside
  · rw [if_neg hfd]
    apply tidy_mk h.transitions

/-- Where there is more to read, the current transition is simple. -/
theorem ScanTidy.isSimple (h : ScanTidy s) (hd : s.data ≠ []) :
  IsSimple s.current
  := by
  rcases h.current with hsimp | ⟨-, hnil, -⟩
  · apply hsimp
  · contradiction

/-- The transitions are simple after the current one was appended. -/
theorem ScanTidy.flush (h : ScanTidy s) (hsimp : IsSimple s.current) :
  ScanTidy s.flush ∧ IsSimple s.flush.current
  := by
  by_cases hfd : s.foundToken = true
  · rw [Scan.flush, if_pos hfd]
    refine ⟨⟨?_, by simp, .inl hsimp⟩, hsimp⟩
    rw [Scan.flushed, if_pos hfd]
    intro t ht
    rcases mem_append.mp ht with ht | ht
    · apply h.transitions t ht
    · rw [mem_singleton.mp ht]
      exact ⟨hsimp, h.inside⟩
  · rw [Scan.flush, if_neg hfd]
    exact ⟨h, hsimp⟩

theorem ScanTidy.move (h : ScanTidy s) (hsimp : IsSimple s.current) (before data : List Char) :
  ScanTidy { s with before := before, data := data }
  := ⟨h.transitions, h.inside, .inl hsimp⟩

theorem ScanTidy.token (h : ScanTidy s) {type : TokenType} (data : ByteSet)
    (ht : type ≠ .logicalOr ∧ type ≠ .epsilon) :
  ScanTidy (s.token type data)
  := ⟨h.transitions, h.inside, .inl ht⟩

theorem ScanTidy.operator (h : ScanTidy s) (hsimp : IsSimple s.current) (op : Operator) :
  ScanTidy (s.operator op)
  := ⟨h.transitions, h.inside, .inl hsimp⟩

theorem bracketToken_type (text : List Char) :
  (bracketToken text).1 ≠ .logicalOr ∧ (bracketToken text).1 ≠ .epsilon
  := by
  unfold bracketToken
  split <;> simp

/-- The head of a tidy expression can be the current transition of a parser that is done. -/
theorem Tidy.headD (h : e.Tidy) (ht : IsSimple t) (hin : ∀ s ∈ t.subExprs, Tidy s) :
  (IsSimple (e.transitions.headD t) ∨ (e.transitions.headD t).op = .concat) ∧
    ∀ s ∈ (e.transitions.headD t).subExprs, Tidy s
  := by
  rcases hts : e.transitions with _ | ⟨t', ts⟩
  · exact ⟨.inl ht, hin⟩
  · have hm : t' ∈ e.transitions := by simp [hts]
    refine ⟨?_, h.inside t' hm⟩
    by_cases hsimp : IsSimple t'
    · exact .inl hsimp
    · right
      rw [IsSimple, ← not_or, not_not] at hsimp
      apply (h.alone t' hm hsimp).2

/-- What the parser finds is tidy. -/
theorem ScanTidy.scan (hsort : ∀ es, (qt.qSort es).Perm es) (n : ℕ) (h : ScanTidy s)
    (pattern : List Char) :
  (RegExp.mk pattern (RegExp.scan qt n s)).Tidy
  := by
  induction n generalizing s pattern with
  | zero =>
    rw [RegExp.scan]
    apply h.flushed
  | succ n ih =>
    have hsub : ∀ sub : List Char, (RegExp.mk sub
        (if qt.isValid sub then RegExp.scan qt n (.start (sub.map toLatin1)) else [])).Tidy := by
      intro sub
      split_ifs
      · apply ih (ScanTidy.start _)
      · apply tidy_mk
        simp
    rw [RegExp.scan]
    split
    · apply h.flushed
    · next c cs hd =>
      have hsimp := h.isSimple (by simp [hd])
      have hfl := (h.move hsimp (s.before ++ ['\\', c]) cs).flush hsimp
      dsimp only
      split
      · apply ih
        apply hfl.1.token _ (bracketToken_type _)
      · apply ih
        apply hfl.1.token
        simp
    · next c cs hcs hd =>
      have hsimp := h.isSimple (by simp [hd])
      have hfl := h.flush hsimp
      split
      · apply ih
        apply (h.move hsimp (s.before ++ [c]) cs).operator hsimp
      · dsimp only
        split
        · apply ih
          refine ⟨hfl.1.transitions, ?_, .inl (by simp [IsSimple])⟩
          intro e he
          rcases mem_append.mp he with he | he
          · apply hfl.1.inside e he
          · rw [mem_singleton.mp he]
            apply hsub
        · apply ih
          have hprev : (RegExp.mk (ofByteArray s.flush.before) s.flush.transitions).Tidy :=
            tidy_mk hfl.1.transitions
          obtain ⟨hhead, hin⟩ := (hprev.or hsort (hsub (ofByteArray cs))).headD hfl.2
            hfl.1.inside
          refine ⟨by simp, hin, ?_⟩
          rcases hhead with hhead | hhead
          · exact .inl hhead
          · exact .inr ⟨rfl, rfl, hhead⟩
        · apply ih
          apply (hfl.1.move hfl.2 s.flush.before (bracketText cs).2).token _
            (bracketToken_type _)
        · apply ih
          apply (hfl.1.move hfl.2 (s.flush.before ++ ['.']) cs).token
          simp
        · apply ih
          apply (hfl.1.move hfl.2 (s.flush.before ++ [c]) cs).token
          simp

/-- A parsed expression is tidy, whatever the pattern. -/
theorem tidy_ofPattern (hsort : ∀ es, (qt.qSort es).Perm es) (pattern : List Char) :
  (ofPattern qt pattern).Tidy
  := by
  unfold ofPattern parsePattern
  split_ifs
  · apply (ScanTidy.start _).scan hsort
  · apply tidy_mk
    simp

/-! ### The laws -/

/-- The expressions that come from patterns. -/
inductive Built (qt : Qt) : RegExp → Prop
  | parsed (pattern : List Char) : Built qt (ofPattern qt pattern)
  | append {a b : RegExp} : Built qt a → Built qt b → Built qt (a.append qt b)
  | prepend {a b : RegExp} : Built qt a → Built qt b → Built qt (a.prepend qt b)
  | or {a b : RegExp} : Built qt a → Built qt b → Built qt (a.or qt b)
  | derived {e : RegExp} {d : Derivation RegExp} : Built qt e → d ∈ e.leftDerivations qt →
      Built qt d.expr

/-- The expressions that come from patterns are tidy. -/
theorem Built.tidy (hsort : ∀ es, (qt.qSort es).Perm es) (h : Built qt e) :
  e.Tidy
  := by
  induction h with
  | parsed pattern => apply tidy_ofPattern hsort
  | append _ _ ha hb => apply ha.append hsort hb
  | prepend _ _ ha hb => apply ha.prepend hsort hb
  | or _ _ ha hb => apply ha.or hsort hb
  | derived _ hd he => apply he.leftDerivations hsort _ hd

/-- `operator |=` joins the languages of expressions that it loses no word of. -/
theorem lang_or (hsort : ∀ es, (qt.qSort es).Perm es) (ha : a.Alone) (hb : b.Alone)
    (hna : a.isNull = false) (hnb : b.isNull = false) (h : Joinable a b) :
  (a.or qt b).lang = a.lang + b.lang
  := by
  have habsorb : ∀ {e : RegExp}, e.isNullable = true → 1 ≤ e.lang := by
    intro e he w hw
    obtain rfl : w = [] := hw
    apply (isNullable_iff_nil_mem e).mp he
  unfold RegExp.or
  simp only [hna, hnb, Bool.false_eq_true, if_false]
  split_ifs with hboth hleft hrt
  · rw [Bool.and_eq_true] at hboth
    rw [h.left hboth.1, h.right hboth.2, add_idem]
  · rw [Bool.and_eq_true] at hleft
    rw [h.left hleft.1, eq_comm, add_eq_right_iff_le]
    apply habsorb hleft.2
  · simp only [Bool.and_eq_true] at hrt
    rw [h.right hrt.1.2, eq_comm, add_eq_left_iff_le]
    apply habsorb hrt.2
  · rw [lang_logicalOr, ← unionLang_alternatives_append ha hb]
    apply ToldApart.unionLang_eq hsort
    rcases h.alternatives with habs | habs | htold
    · simp [habs] at hleft
    · cases heps : a.isEpsilon <;> simp_all
    · apply htold

/-- Concatenation and union of expressions that come from patterns, and are not ø, are those of
their languages: of `append` and `prepend` where no logical or stands between the expressions, of
`operator |=` where no word can be lost. -/
theorem laws (hsort : ∀ es, (qt.qSort es).Perm es) (ha : Built qt a) (hb : Built qt b)
    (hna : a.isNull = false) (hnb : b.isNull = false) :
  (Meets a b →
    (a.append qt b).lang = a.lang * b.lang ∧ (a.prepend qt b).lang = b.lang * a.lang) ∧
  (Joinable a b → (a.or qt b).lang = a.lang + b.lang)
  := by
  have hta := (ha.tidy hsort).alone
  have htb := (hb.tidy hsort).alone
  constructor
  · intro hmeets
    constructor
    · apply lang_append hta htb hna hnb hmeets
    · apply lang_prepend hta htb hna hnb hmeets
  · apply lang_or hsort hta htb hna hnb

end RegExp

/-- Every pattern is valid, and expressions stay in the order they have. -/
def Qt.asGiven : Qt := ⟨fun _ => true, id⟩

namespace RegExp

theorem laws_digitsAndLetters :
  ∃ a b : RegExp, a = ofPattern .asGiven ['\\', 'd', '*'] ∧ b = ofPattern .asGiven ['x', '|', 'y'] ∧
    ((a.append .asGiven a).lang = a.lang * a.lang ∧ (a.prepend .asGiven a).lang = a.lang * a.lang) ∧
    (a.or .asGiven b).lang = a.lang + b.lang
  := by
  have hsort : ∀ es, (Qt.asGiven.qSort es).Perm es := fun es => List.Perm.refl es
  refine ⟨_, _, rfl, rfl, (laws hsort (.parsed _) (.parsed _) rfl rfl).1 (.inr (.inr ⟨rfl, rfl⟩)),
    (laws hsort (.parsed _) (.parsed _) rfl rfl).2 ⟨?_, ?_, .inr (.inr ?_)⟩⟩
  · intro heps
    cases heps
  · intro heps
    cases heps
  · apply toldApart_of_nodup
    decide

theorem mem_lang_byte {pattern : List Char} {byte : UInt8} {w : List UInt8} :
  w ∈ (mk pattern [⟨.normal, [byte], [], .concat⟩]).lang ↔ w = [byte]
  := by
  rw [lang_mk (by simp), transitionsLang_singleton, transitionLang]
  · constructor
    · rintro ⟨b, hb, rfl⟩
      rw [mem_singleton.mp hb]
    · rintro rfl
      exact ⟨byte, mem_singleton_self _, rfl⟩
  · simp
  · simp

/-- The second alternative of `a|b` is lost when `c` is appended: the word `bc` is not in the
language. -/
theorem append_loses_alternative :
  [98, 99] ∈ (ofPattern .asGiven ['a', '|', 'b']).lang * (ofPattern .asGiven ['c']).lang ∧
    [98, 99] ∉ ((ofPattern .asGiven ['a', '|', 'b']).append .asGiven
      (ofPattern .asGiven ['c'])).lang
  := by
  have halts : (ofPattern .asGiven ['a', '|', 'b']).alternatives =
    [mk ['a'] [⟨.normal, [97], [], .concat⟩], mk ['b'] [⟨.normal, [98], [], .concat⟩]] := rfl
  have hc : ofPattern .asGiven ['c'] = mk ['c'] [⟨.normal, [99], [], .concat⟩] := rfl
  have happ : (ofPattern .asGiven ['a', '|', 'b']).append .asGiven (ofPattern .asGiven ['c']) =
    mk ['(', 'a', '|', 'b', ')', 'c'] [⟨.subExpr, [],
      (ofPattern .asGiven ['a', '|', 'b']).alternatives ++ [ofPattern .asGiven ['a', '|', 'b']],
      .concat⟩, ⟨.normal, [99], [], .concat⟩] := rfl
  constructor
  · rw [Language.mem_mul]
    refine ⟨[98], ?_, [99], ?_, rfl⟩
    · rw [(tidy_ofPattern (fun es => List.Perm.refl es) _).alone.lang_or rfl, mem_unionLang, halts]
      exact ⟨_, mem_cons_of_mem _ mem_cons_self, mem_lang_byte.mpr rfl⟩
    · rw [hc]
      apply mem_lang_byte.mpr rfl
  · rw [happ, halts, lang_mk (by simp), transitionsLang]
    rintro ⟨u, hu, v, hv, huv⟩
    rw [transitionLang, cons_append, firstLang, Operator.lang] at hu
    obtain rfl := mem_lang_byte.mp hu
    simp at huv

end RegExp

end Librecompare
