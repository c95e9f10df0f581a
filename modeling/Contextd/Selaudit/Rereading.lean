import Contextd.Selaudit.Lines

/-!
# Reading a policy that was written

The file that `to_file` writes, part by part: titles and comments are passed over, the block of
requirements is a statement of its own, and the lines of the parts are read as the statements they
come from.
-/

namespace Selaudit

open List

variable {s : String} {e : Element} {order : SetOrder} {es : List Element}

/-! ### Comments -/

theorem not_mem_ruler {c : Char} (hc : c ≠ '=') :
  c ∉ ruler.toList
  := by
  intro hm
  have hall : ∀ d ∈ ruler.toList, d = '=' := by simp [ruler]
  apply hc (hall c hm)

/-- A title is passed over. -/
theorem scanned_title {name : String} (hl : '\n' ∉ name.toList) (htick : '\x60' ∉ name.toList) :
  Scanned (title name).toList []
  := by
  have hruler : '\n' ∉ ' ' :: ruler.toList ∧ '\x60' ∉ ' ' :: ruler.toList := by
    simp [not_mem_ruler]
  have hlast := Scanned.comment hruler.1 hruler.2 Scanned.nil
  have hn := Scanned.comment (t := ' ' :: name.toList) (by simp [hl]) (by simp [htick]) hlast
  have hfst := Scanned.comment hruler.1 hruler.2 hn
  have hbl := Scanned.blank (c := '\n') (by decide)
    (Scanned.blank (c := '\n') (by decide) hfst)
  simpa [title] using hbl

/-- The characters of a name. -/
theorem mem_of_isName (h : IsName s) {c : Char} (hc : c ∈ s.toList) :
  isWordChar c = true ∨ c = ' ' ∨ c = '-'
  := by
  have hw : ∀ {s : String}, IsIdentifier s → c ∈ s.toList → isWordChar c = true := by
    intro s hs hc
    obtain ⟨d, ds, hd, hst⟩ := hs.exists_cons
    have hw := hs.1
    rw [hd, isWord, Bool.and_eq_true, all_eq_true] at hw
    rw [hd] at hc
    rcases mem_cons.mp hc with rfl | hc
    · simp [isWordChar, hst]
    · apply hw.2 c hc
  cases h with
  | identifier h => exact .inl (hw h hc)
  | asterisk =>
    left
    simp at hc
    subst hc
    decide
  | difference h h' =>
    simp only [String.toList_append, mem_append] at hc
    rcases hc with (hc | hc) | hc
    · exact .inl (hw h hc)
    · simp at hc
      rcases hc with rfl | rfl
      · exact .inr (.inl rfl)
      · exact .inr (.inr rfl)
    · exact .inl (hw h' hc)

/-- The comment before the rules of a source. -/
theorem scanned_source (h : IsName s) :
  Scanned ("\n# ==> " ++ s ++ "\n").toList []
  := by
  have hnot : ∀ c, isWordChar c = false → c ≠ ' ' → c ≠ '-' → c ∉ s.toList := by
    intro c hc hbl hmin hm
    rcases mem_of_isName h hm with hw | rfl | rfl
    · rw [hc] at hw
      cases hw
    · contradiction
    · contradiction
  have hl := hnot '\n' (by decide) (by decide) (by decide)
  have htick := hnot '\x60' (by decide) (by decide) (by decide)
  have hcomment := Scanned.comment (t := " ==> ".toList ++ s.toList) (by simp [hl])
    (by simp [htick]) Scanned.nil
  have hbl := Scanned.blank (c := '\n') (by decide) hcomment
  simpa using hbl

/-! ### Requirements -/

/-- What can be required: names and elements of lists. -/
def IsRequired (s : String) : Prop := IsName s ∨ IsElement s

/-- What is required, other than `*`, is a list of elements. -/
theorem exists_elements (h : IsRequired s) (hs : s ≠ "*") :
  ∃ c : List String, c ≠ [] ∧ (∀ x ∈ c, IsElement x) ∧ " ".intercalate c = s
  := by
  rcases h with h | h
  · cases h with
    | identifier h => exact ⟨[s], by simp, by simpa using .identifier h, by simp⟩
    | asterisk => contradiction
    | @difference s s' h h' =>
      refine ⟨[s, "-" ++ s'], by simp, ?_, ?_⟩
      · simpa using ⟨.identifier h, .minus h'⟩
      · have hmin : " " ++ ("-" ++ s') = " -" ++ s' := by
          rw [← String.append_assoc]
          rfl
        simp [String.append_assoc, hmin]
  · exact ⟨[s], by simp, by simpa using h, by simp⟩

/-- The types that are required are elements with blanks between them. -/
theorem exists_chunks {ts : List String} (h : ∀ t ∈ ts, IsRequired t) (hts : "*" ∉ ts) :
  ∃ chunks : List (List String), (∀ c ∈ chunks, c ≠ [] ∧ ∀ x ∈ c, IsElement x) ∧
    chunks.map (" ".intercalate ·) = ts
  := by
  induction ts with
  | nil => exact ⟨[], by simp, rfl⟩
  | cons t ts ih =>
    obtain ⟨ht, htail⟩ := forall_mem_cons.mp h
    obtain ⟨hne, hnotMem⟩ := not_or.mp (fun h => hts (mem_cons.mpr h))
    obtain ⟨chunks, hcks, hmap⟩ := ih htail hnotMem
    obtain ⟨c, hc, hels, htext⟩ := exists_elements ht (Ne.symm hne)
    refine ⟨c :: chunks, forall_mem_cons.mpr ⟨⟨hc, hels⟩, hcks⟩, ?_⟩
    rw [map_cons, hmap, htext]

theorem spelled_comma {w w' : List Char} {ls ls' : List Lexeme} (h : Spelled w ls)
    (h' : Spelled w' ls') :
  Spelled (w ++ (",".toList ++ w')) (ls ++ ([.mark .comma] ++ ls'))
  := h.mark (c := ',') (by decide) (by decide) rfl h'

/-- They are spelled with commas between them. -/
theorem spelled_chunks {chunks : List (List String)}
    (h : ∀ c ∈ chunks, c ≠ [] ∧ ∀ x ∈ c, IsElement x) :
  Spelled (",".intercalate (chunks.map (" ".intercalate ·))).toList (commaLexemes chunks)
  := spelled_intercalate spelled_comma (fun c hc => spelled_elements (h c hc).2)

/-- The beginning of a block of requirements. -/
theorem spelled_require {w : List Char} {ls ls' : List Lexeme} (hs : Spelled s.toList ls)
    (hw : Spelled w ls') :
  Spelled ("require \x7b ".toList ++ (s.toList ++ ' ' :: w))
    (.keyword .require :: .mark .lbrace :: (ls ++ ls'))
  := (spelled_keyword (s := "require") (by decide) rfl).blank
    ((hs.blank hw).blankFirst.markFirst (c := '\x7b') (by decide) rfl)

/-- The block of required types is read as no element. -/
theorem chunk_requireBlock {order : SetOrder} {ts : List String} (h : ∀ t ∈ ts, IsRequired t)
    (hts : "*" ∉ ts) :
  ∃ es, es.reduceOption = [] ∧ Chunk order (requireBlock "type" ts).toList es
  := by
  by_cases hlen : 0 < ts.length
  · obtain ⟨chunks, hcks, rfl⟩ := exists_chunks h hts
    rw [length_map] at hlen
    have hspl := spelled_require (spelled_keyword (s := "type") (by decide) rfl)
      (spelled_chunks hcks)
    have hend : Scanned [';', '\x7d'] [.mark .semi, .mark .rbrace] :=
      Scanned.semi (by decide) (Scanned.mark (by decide) rfl Scanned.nil)
    have hs := hspl _ _ ⟨';', _, rfl, by decide⟩ hend
    refine ⟨[none], rfl, .keyword .require :: .mark .lbrace :: .keyword .typeWord ::
      (commaLexemes chunks ++ [.mark .semi, .mark .rbrace]), ?_, .single ?_⟩
    · simpa [requireBlock, hlen] using hs
    · intro r
      have hread := commaList_chunks (ne_nil_of_length_pos hlen) hcks
        (.mark .rbrace :: r)
      have hblock : requireStatement false (.mark .lbrace :: .keyword .typeWord ::
          (commaLexemes chunks ++ .mark .semi :: .mark .rbrace :: r)) = some r := by
        simp [requireStatement, expect, requires, isRequirement, hread]
      simp only [cons_append, append_assoc, nil_append]
      change (requireStatement false _).map _ = _
      rw [hblock]
      rfl
  · refine ⟨[], rfl, ?_⟩
    rw [requireBlock, if_neg hlen]
    apply Chunk.nil

/-- The types that statements name. -/
theorem isRequired_of_mem_reqTypes (hprop : e.IsProper) {types : List String}
    (htys : e.reqTypes = some types) {t : String} (ht : t ∈ types) :
  IsRequired t
  := by
  cases e with
  | permissive domains =>
    obtain rfl := mapM_str? htys
    cases hprop (.str t) (mem_map_of_mem ht) with
    | str h => exact .inr h
  | rule kind source target objectClass attributes =>
    obtain ⟨hsrc, htgt, hdont, -, -⟩ := hprop
    obtain ⟨s, s', rfl, rfl⟩ := exists_str_of_mapM (Option.isSome_iff_exists.mpr ⟨_, htys⟩)
    have hk : kind ≠ .dontaudit := by
      intro hk
      cases hdont hk
    cases htys
    rcases mem_pair.mp ht with rfl | rfl
    · exact .inl (isName_of_isNames hsrc)
    · exact .inl (isName_of_isNames (htgt hk))
  | typeRule kind source target objectClass destination =>
    obtain ⟨hsrc, htgt, -, -⟩ := hprop
    obtain ⟨s, s', rfl, rfl⟩ := exists_str_of_mapM (Option.isSome_iff_exists.mpr ⟨_, htys⟩)
    cases htys
    rcases mem_pair.mp ht with rfl | rfl
    · exact .inl (isName_of_isNames hsrc)
    · exact .inl (isName_of_isNames htgt)
  | interfaceCall name inputs =>
    cases htys
    obtain ⟨hm, hends⟩ := mem_filter.mp ht
    obtain ⟨-, rfl | ⟨-, hinputs⟩⟩ := hprop
    · obtain rfl := mem_singleton.mp hm
      cases hends
    · rcases hinputs t hm with h | rfl | rfl
      · exact .inl (.identifier h)
      · cases hends
      · cases hends
  | moduleHeader name version => cases htys; contradiction
  | policyModule name version => cases htys; contradiction
  | typeDef name aliases attributes => cases htys; contradiction
  | roleDef name types => cases htys; contradiction
  | permSet id perms warn => cases htys; contradiction
  | refpolicywarn text => cases htys; contradiction
  | m4Value id => cases htys; contradiction

/-! ### The lines of a part -/

/-- Lines are read back. -/
theorem chunk_writeLines (hprop : ∀ e ∈ es, e.IsProper)
    (hreq : ∀ e ∈ es, e.reqTypes.isSome = true) (h : ∀ e ∈ es, e.isReadable = true) :
  ∃ text es', writeLines es = some text ∧ List.Forall₂ Element.Same es es' ∧
    Chunk order text.toList (es'.map some)
  := by
  induction es with
  | nil => exact ⟨"", [], rfl, .nil, Chunk.nil⟩
  | cons e es ih =>
    obtain ⟨heproper, hprop⟩ := forall_mem_cons.mp hprop
    obtain ⟨hereq, hreq⟩ := forall_mem_cons.mp hreq
    obtain ⟨he, h⟩ := forall_mem_cons.mp h
    obtain ⟨rest, es', hr, hsame, hck⟩ := ih hprop hreq h
    obtain ⟨text, e', ht, hesame, hl⟩ := @chunk_of_isReadable order e heproper hereq he
    refine ⟨text ++ "\n" ++ rest, e' :: es', ?_, .cons hesame hsame, ?_⟩
    · simp [writeLines, ht, hr]
    · rw [String.toList_append (s := text ++ "\n")]
      apply hl.append hck

/-- The sources of rules are names. -/
theorem isName_source (hprop : e.IsProper) (hreq : e.reqTypes.isSome = true)
    (hp : e.part? = some .rules) :
  IsName e.source
  := by
  cases e with
  | rule kind source target objectClass attributes =>
    obtain ⟨s, t, rfl, rfl⟩ := exists_str_of_mapM hreq
    apply isName_of_isNames hprop.1
  | typeRule kind source target objectClass destination =>
    obtain ⟨s, t, rfl, rfl⟩ := exists_str_of_mapM hreq
    apply isName_of_isNames hprop.1
  | _ => cases hp

/-- The comment before a rule is passed over. -/
theorem chunk_comment {order : SetOrder} {s : String} (h : IsName s) (sources : List String) :
  Chunk order (if s ∈ sources then "" else "\n# ==> " ++ s ++ "\n").toList []
  := by
  split_ifs
  · apply Chunk.nil
  · apply (scanned_source h).chunk

/-- Rules are read back, with the comments between them. -/
theorem chunk_writeRules {order : SetOrder} {es : List Element} (hprop : ∀ e ∈ es, e.IsProper)
    (hreq : ∀ e ∈ es, e.reqTypes.isSome = true) (hp : ∀ e ∈ es, e.part? = some .rules)
    (h : ∀ e ∈ es, e.isReadable = true) (sources : List String) :
  ∃ text es', writeRules sources es = some text ∧ List.Forall₂ Element.Same es es' ∧
    Chunk order text.toList (es'.map some)
  := by
  induction es generalizing sources with
  | nil => exact ⟨"", [], rfl, .nil, Chunk.nil⟩
  | cons e es ih =>
    obtain ⟨heproper, hprop⟩ := forall_mem_cons.mp hprop
    obtain ⟨hereq, hreq⟩ := forall_mem_cons.mp hreq
    obtain ⟨hepart, hp⟩ := forall_mem_cons.mp hp
    obtain ⟨he, h⟩ := forall_mem_cons.mp h
    obtain ⟨rest, es', hr, hsame, hck⟩ :=
      ih hprop hreq hp h (if e.source ∈ sources then sources else e.source :: sources)
    obtain ⟨text, e', ht, hesame, hl⟩ := @chunk_of_isReadable order e heproper hereq he
    have hcomment := @chunk_comment order _ (isName_source heproper hereq hepart) sources
    refine ⟨(if e.source ∈ sources then "" else "\n# ==> " ++ e.source ++ "\n") ++ text ++ "\n" ++
      rest, e' :: es', ?_, .cons hesame hsame, ?_⟩
    · rw [writeRules, ht]
      simp only [Option.bind_eq_bind, Option.bind_some, hr]
      rfl
    · have hall := hcomment.append (hl.append hck)
      rw [← String.toList_append, ← String.toList_append] at hall
      simp only [String.append_assoc] at hall ⊢
      apply hall

/-! ### The file -/

/-- The elements that are written, part by part. -/
def written (es : List Element) : List Element :=
  inPart .header es ++ (inPart .types es ++ (inPart .roles es ++ (inPart .interfaces es ++
    inPart .rules es)))

/-- The parts are all the elements that belong to a part. -/
theorem perm_written (es : List Element) :
  (es.filter fun e => e.part?.isSome).Perm (written es)
  := by
  induction es with
  | nil => rfl
  | cons e es ih =>
    rcases hp : e.part? with _ | part
    · simpa [written, inPart, hp] using ih
    · simp only [written, inPart] at ih ⊢
      cases part
      all_goals simp only [filter_cons, hp, Option.isSome_some, if_true, Option.some.injEq,
        reduceCtorEq, decide_true, decide_false, Bool.false_eq_true, if_false]
      · apply ih.cons e
      · apply perm_cons_append_cons e ih
      · rw [← append_assoc] at ih ⊢
        apply perm_cons_append_cons e ih
      · rw [← append_assoc, ← append_assoc] at ih ⊢
        apply perm_cons_append_cons e ih
      · rw [← append_assoc, ← append_assoc, ← append_assoc] at ih ⊢
        apply perm_cons_append_cons e ih

/-- The same statements, up to order. -/
def SameStatements (es es' : List Element) : Prop :=
  ∃ l, es.Perm l ∧ List.Forall₂ Element.Same l es'

/-- What the element needs can be required: its types, other than `*`, and its roles, which are all
declared. -/
def Element.isRequirable (es : List Element) (e : Element) : Bool :=
  e.reqTypes.any (fun types => "*" ∉ types) &&
    e.reqRoles.all fun r => r ∈ es.filterMap Element.roleName?

theorem mem_set {l : List String} :
  s ∈ order.set l ↔ s ∈ l
  := by
  rw [SetOrder.set, SetOrder.mem_list, mem_dedup]

/-- What statements require. -/
theorem isRequired_of_requiredTypes (hprop : ∀ e ∈ es, e.IsProper) {required : List String}
    (hreq : requiredTypes es = some required) :
  (∀ e ∈ es, e.reqTypes.isSome = true) ∧ (∀ t ∈ required, IsRequired t) ∧
    ∀ t ∈ required, ∃ e ∈ es, ∃ types, e.reqTypes = some types ∧ t ∈ types
  := by
  obtain ⟨types, htys, hfil⟩ := Option.map_eq_some_iff.mp hreq
  have hs := List.isSome_mapM_iff.mp (Option.isSome_of_eq_some htys)
  have hfrom : ∀ t ∈ required, ∃ e ∈ es, ∃ types, e.reqTypes = some types ∧ t ∈ types := by
    intro t ht
    rw [← hfil] at ht
    obtain ⟨l, hl, ht⟩ := mem_flatten.mp (mem_filter.mp ht).1
    obtain ⟨e, he, hel⟩ := (List.mem_of_mapM_eq_some htys l).mp hl
    use e, he, l, hel, ht
  refine ⟨hs, ?_, hfrom⟩
  intro t ht
  obtain ⟨e, he, l, hel, ht⟩ := hfrom t ht
  apply isRequired_of_mem_reqTypes (hprop e he) hel ht

/-- What is required by statements that can be required. -/
theorem exists_requiredTypes (hprop : ∀ e ∈ es, e.IsProper)
    (h : ∀ e ∈ es, e.isRequirable es = true) :
  ∃ required, requiredTypes es = some required ∧ (∀ t ∈ required, IsRequired t) ∧
    "*" ∉ required ∧ requiredRoles es = []
  := by
  have hreq : ∀ e ∈ es, ∃ types, e.reqTypes = some types ∧ "*" ∉ types := by
    intro e he
    have hreq := h e he
    simp only [Element.isRequirable, Bool.and_eq_true, Option.any_eq_true,
      decide_eq_true_eq] at hreq
    apply hreq.1
  obtain ⟨required, hrequired⟩ : ∃ required, requiredTypes es = some required := by
    apply Option.isSome_iff_exists.mp
    rw [requiredTypes, Option.isSome_map, List.isSome_mapM_iff]
    intro e he
    obtain ⟨types, htys, -⟩ := hreq e he
    simp [htys]
  obtain ⟨-, hns, hfrom⟩ := isRequired_of_requiredTypes hprop hrequired
  refine ⟨required, hrequired, hns, ?_, ?_⟩
  · intro hast
    obtain ⟨e, he, l, hel, ht⟩ := hfrom "*" hast
    obtain ⟨l', hl', hnot⟩ := hreq e he
    rw [hel] at hl'
    cases hl'
    apply hnot ht
  · rw [requiredRoles, filter_eq_nil_iff]
    intro r hr
    obtain ⟨e, he, hr⟩ := mem_flatMap.mp hr
    have hrls := h e he
    simp only [Element.isRequirable, Bool.and_eq_true, all_eq_true] at hrls
    simpa using hrls.2 r hr

theorem mem_inPart {part : Section} (h : e ∈ inPart part es) :
  e ∈ es ∧ e.part? = some part
  := by
  obtain ⟨hm, hp⟩ := mem_filter.mp h
  exact ⟨hm, of_decide_eq_true hp⟩

/-- What is readable is written. -/
theorem part?_of_isReadable (h : e.isReadable = true) :
  e.part?.isSome = true
  := by
  cases e <;> first | rfl | cases h

theorem set_nil (order : SetOrder) :
  order.set [] = []
  := perm_nil.mp (order.perm _)

/-- The text of a file, from the texts of its parts. -/
def fileText (header types roles require interfaces rules : String) : String :=
  header ++ (title "Types" ++ (types ++ (title "Roles" ++ (roles ++ (title "Require" ++ (require ++
    (title "Interfaces" ++ (interfaces ++ (title "Rules" ++ rules)))))))))

/-- `to_file` writes the texts of the parts. -/
theorem toFile_eq_some {tokens : List (Option Element)} {text : String} :
  toFile order tokens [] = some text ↔
    ∃ header types roles required interfaces rules,
      writeLines (inPart .header tokens.reduceOption) = some header ∧
      writeLines (inPart .types tokens.reduceOption) = some types ∧
      writeLines (inPart .roles tokens.reduceOption) = some roles ∧
      requiredTypes tokens.reduceOption = some required ∧
      writeLines (inPart .interfaces tokens.reduceOption) = some interfaces ∧
      writeRules [] (inPart .rules tokens.reduceOption) = some rules ∧
      fileText header types roles (requireBlock "type" (order.set required) ++
        requireBlock "roles" (order.set (requiredRoles tokens.reduceOption))) interfaces rules
          = text
  := by
  have hdoms : writeDomains [] = "" := rfl
  simp only [toFile, Option.bind_eq_bind, Option.bind_eq_some_iff, Option.pure_def,
    Option.some.injEq, fileText, hdoms, String.append_empty, String.append_assoc]
  constructor
  · rintro ⟨header, hhdr, types, htys, roles, hrls, required, hreq, interfaces,
      hintfs, rules, hrs, ht⟩
    exact ⟨header, types, roles, required, interfaces, rules, hhdr, htys, hrls, hreq,
      hintfs, hrs, ht⟩
  · rintro ⟨header, types, roles, required, interfaces, rules, hhdr, htys, hrls, hreq,
      hintfs, hrs, ht⟩
    exact ⟨header, hhdr, types, htys, roles, hrls, required, hreq, interfaces,
      hintfs, rules, hrs, ht⟩

theorem toList_fileText (header types roles require interfaces rules : String) :
  (fileText header types roles require interfaces rules).toList =
    header.toList ++ ((title "Types").toList ++ (types.toList ++ ((title "Roles").toList ++
      (roles.toList ++ ((title "Require").toList ++ (require.toList ++
        ((title "Interfaces").toList ++ (interfaces.toList ++ ((title "Rules").toList ++
          rules.toList)))))))))
  := by
  simp only [fileText, String.toList_append]

/-- A title is a chunk without statements. -/
theorem chunk_title {order : SetOrder} {name : String} (hl : '\n' ∉ name.toList)
    (htick : '\x60' ∉ name.toList) :
  Chunk order (title name).toList []
  := (scanned_title hl htick).chunk

theorem reduceOption_map_some (es : List Element) :
  (es.map some).reduceOption = es
  := by
  simp [List.reduceOption]

/-- A file whose parts can be read is read as statements in a row. -/
theorem exists_chunk_fileText {header types roles require interfaces rules : String}
    {es₁ es₂ es₃ es₄ es₅ : List Element} {es₀ : List (Option Element)}
    (h₁ : Chunk order header.toList (es₁.map some)) (h₂ : Chunk order types.toList (es₂.map some))
    (h₃ : Chunk order roles.toList (es₃.map some)) (h₀ : Chunk order require.toList es₀)
    (hn : es₀.reduceOption = []) (h₄ : Chunk order interfaces.toList (es₄.map some))
    (h₅ : Chunk order rules.toList (es₅.map some)) :
  ∃ es, Chunk order (fileText header types roles require interfaces rules).toList es ∧
    es.reduceOption = es₁ ++ (es₂ ++ (es₃ ++ (es₄ ++ es₅)))
  := by
  have hck := h₁.append ((@chunk_title order "Types" (by decide) (by decide)).append
    (h₂.append ((@chunk_title order "Roles" (by decide) (by decide)).append
      (h₃.append ((@chunk_title order "Require" (by decide) (by decide)).append
        (h₀.append ((@chunk_title order "Interfaces" (by decide) (by decide)).append
          (h₄.append ((@chunk_title order "Rules" (by decide) (by decide)).append h₅)))))))))
  rw [← toList_fileText] at hck
  refine ⟨_, hck, ?_⟩
  simp only [reduceOption_append, reduceOption_map_some, hn, nil_append]

/-- A policy whose lines can be read again, and whose needs can be required, is read as it was. -/
theorem exists_chunk_toFile {order' : SetOrder} {tokens : List (Option Element)}
    (hprop : ∀ e ∈ tokens.reduceOption, e.IsProper)
    (hread : ∀ e ∈ tokens.reduceOption, e.isReadable = true)
    (hreq : ∀ e ∈ tokens.reduceOption, e.isRequirable tokens.reduceOption = true) :
  ∃ text es', toFile order tokens [] = some text ∧ Chunk order' text.toList es' ∧
    SameStatements tokens.reduceOption es'.reduceOption
  := by
  obtain ⟨es, hes⟩ : ∃ es, tokens.reduceOption = es := ⟨_, rfl⟩
  rw [hes] at hprop hread hreq ⊢
  obtain ⟨required, hrequired, hns, hast, hrls⟩ := exists_requiredTypes hprop hreq
  have hs : ∀ e ∈ es, e.reqTypes.isSome = true := by
    intro e he
    have h := hreq e he
    simp only [Element.isRequirable, Bool.and_eq_true, Option.any_eq_true] at h
    obtain ⟨⟨types, htys, -⟩, -⟩ := h
    simp [htys]
  have hlines : ∀ part, ∃ text es', writeLines (inPart part es) = some text ∧
      List.Forall₂ Element.Same (inPart part es) es' ∧
      Chunk order' text.toList (es'.map some) := fun part =>
    chunk_writeLines (fun e he => hprop e (mem_inPart he).1)
      (fun e he => hs e (mem_inPart he).1) (fun e he => hread e (mem_inPart he).1)
  obtain ⟨header, es₁, hhdr, hsame₁, hck₁⟩ := hlines .header
  obtain ⟨types, es₂, htys, hsame₂, hck₂⟩ := hlines .types
  obtain ⟨roles, es₃, hroleLines, hsame₃, hck₃⟩ := hlines .roles
  obtain ⟨interfaces, es₄, hintfs, hsame₄, hck₄⟩ := hlines .interfaces
  obtain ⟨rules, es₅, hrs, hsame₅, hck₅⟩ :=
    @chunk_writeRules order' _ (fun e he => hprop e (mem_inPart he).1)
      (fun e he => hs e (mem_inPart he).1) (fun e he => (mem_inPart he).2)
      (fun e he => hread e (mem_inPart he).1) []
  obtain ⟨none', hn, hrequire⟩ := @chunk_requireBlock order' (order.set required)
    (fun t ht => hns t (mem_set.mp ht)) (fun h => hast (mem_set.mp h))
  obtain ⟨es', hck, hes'⟩ :=
    exists_chunk_fileText hck₁ hck₂ hck₃ hrequire hn hck₄ hck₅
  refine ⟨_, es', toFile_eq_some.mpr ⟨header, types, roles, required, interfaces, rules, ?_⟩,
    hck, written es, ?_, ?_⟩
  · have hemp : requireBlock "roles" [] = "" := rfl
    rw [hes, hrls, set_nil, hemp, String.append_empty]
    exact ⟨hhdr, htys, hroleLines, hrequired, hintfs, hrs, rfl⟩
  · have hparts : es.filter (fun e => e.part?.isSome) = es :=
      filter_eq_self.mpr fun e he => part?_of_isReadable (hread e he)
    rw [← hparts]
    nth_rewrite 2 [hparts]
    apply perm_written es
  · rw [hes']
    apply rel_append hsame₁ (rel_append hsame₂ (rel_append hsame₃
      (rel_append hsame₄ hsame₅)))

/-! ### The round trip -/

/-- The file that is written is accepted, and has the same statements. -/
def RoundTrips (order order' : SetOrder) (tokens : List (Option Element)) : Prop :=
  ∃ text tokens', toFile order tokens [] = some text ∧ parse order' text = some tokens' ∧
    SameStatements tokens.reduceOption tokens'.reduceOption

/-- A policy that is accepted is read as it was, after it has been written, when every line can be
read again and every need can be required. -/
theorem roundTrips_of_isReadable {order order' order'' : SetOrder} {text : String}
    {tokens : List (Option Element)} (h : parse order text = some tokens)
    (hread : ∀ e ∈ tokens.reduceOption, e.isReadable = true)
    (hreq : ∀ e ∈ tokens.reduceOption, e.isRequirable tokens.reduceOption = true) :
  RoundTrips order' order'' tokens
  := by
  obtain ⟨text', es, hf, hck, hsame⟩ :=
    @exists_chunk_toFile order' order'' tokens (isProper_of_parse h) hread hreq
  obtain ⟨tokens', hpar, htok⟩ := hck.parse
  rw [← htok] at hsame
  exact ⟨text', tokens', hf, hpar, hsame⟩

/-- A policy that can be read again. -/
def plainPolicy : String :=
  "module m 1.0; type a_t; allow a_t b_t:file \x7b read write \x7d; f(a_t);"

/-- The tokens of the policy. -/
def plainTokens : List (Option Element) :=
  [some (.moduleHeader "m" "1.0"), some (.typeDef "a_t" none []),
    some (.rule .allow (.str "a_t") (.str "b_t") ["file"] ["read", "write"]),
    some (.interfaceCall "f" ["a_t"])]

theorem tokenize_plainPolicy :
  tokenize plainPolicy =
    [.keyword .moduleWord, .identifier "m", .number "1.0", .mark .semi,
      .keyword .typeWord, .identifier "a_t", .mark .semi,
      .keyword .allow, .identifier "a_t", .identifier "b_t", .mark .colon, .identifier "file",
      .mark .lbrace, .identifier "read", .identifier "write", .mark .rbrace, .mark .semi,
      .identifier "f", .mark .lparen, .identifier "a_t", .mark .rparen, .mark .semi]
  := by
  decide +kernel

theorem parse_plainPolicy :
  parse .asGiven plainPolicy = some plainTokens
  := by
  rw [parse, tokenize_plainPolicy]
  rfl

theorem roundTrips_plainPolicy :
  parse .asGiven plainPolicy = some plainTokens ∧ RoundTrips .asGiven .asGiven plainTokens
  := ⟨parse_plainPolicy,
    roundTrips_of_isReadable parse_plainPolicy (by decide +kernel) (by decide +kernel)⟩

/-- A policy with a `dontaudit` rule. -/
def silentPolicy : String := "module m 1.0; dontaudit a_t b_t:file read;"

/-- The tokens of the policy: the target of the rule is in a list. -/
def silentTokens : List (Option Element) :=
  [some (.moduleHeader "m" "1.0"),
    some (.rule .dontaudit (.str "a_t") (.list (.str "b_t") []) ["file"] ["read"])]

/-- The list cannot be put into a set, so that the policy is not written. -/
theorem not_roundTrips_silentPolicy :
  parse .asGiven silentPolicy = some silentTokens ∧ ¬ RoundTrips .asGiven .asGiven silentTokens
  := by
  have htok : tokenize silentPolicy =
      [.keyword .moduleWord, .identifier "m", .number "1.0", .mark .semi, .keyword .dontaudit,
        .identifier "a_t", .identifier "b_t", .mark .colon, .identifier "file",
        .identifier "read", .mark .semi] := by
    decide +kernel
  constructor
  · rw [parse, htok]
    rfl
  · rintro ⟨text, tokens, hf, -⟩
    obtain ⟨-, -, -, required, -, -, -, -, -, hreq, -⟩ := toFile_eq_some.mp hf
    cases hreq

end Selaudit
