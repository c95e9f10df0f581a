import Contextd.Daemon.XmlReading

/-!
# The round trip of messages

A message that `xmlContext` writes for names and values is parsed by `XMLContext2Map`.  The parser
reads it to its end and stores each name with what it reads for the value.  A name in which
`QString::arg` finds a place marker is sent with the value in it.
-/

namespace Daemon

open List XmlSp Encoding Parser

/-! ### Names and values -/

/-- What the documentation of Qt says of the conversions when no codec is set for C strings:
`fromAscii` and `toAscii`, on which `toStdString` rests, are those of Latin-1, and `fromUtf8`
reads UTF-8. -/
structure Codec.Documented (codec : Codec) : Prop where
  fromAscii : ∀ bs, 0 ∉ bs → codec.fromAscii bs = String.ofList (latin1 bs)
  toStdString : ∀ bs, codec.toStdString (String.ofList (latin1 bs)) = bs
  fromUtf8 : ∀ s : String, codec.fromUtf8 (utf8 s.toList) = s

/-- The message for names and values that are given as C strings, in UTF-8. -/
def announce (codec : Codec) (params : List (String × String)) : String :=
  xmlContext (params.map fun (name, value) =>
    (codec.fromAscii (utf8 name.toList), codec.fromAscii (utf8 value.toList)))

/-- The character may be used in a name, which is not escaped: it is no markup of XML, no line
end that XML replaces, and not the end of a C string. -/
def XmlSafe (c : Char) : Prop := c ∉ "&<>\"\r\x00".toList

instance (c : Char) : Decidable (XmlSafe c) := inferInstanceAs (Decidable (¬ _))

/-- The name is made of safe characters; the value is not empty and has no null character. -/
structure Announceable (param : String × String) : Prop where
  safe : ∀ c ∈ param.1.toList, XmlSafe c
  ne_empty : param.2 ≠ ""
  no_null : '\x00' ∉ param.2.toList

/-- Such names and values, of distinct names. -/
structure Announced (params : List (String × String)) : Prop where
  nodup : (params.map Prod.fst).Nodup
  each : ∀ param ∈ params, Announceable param

/-- The message is parsed to the map of the names and values. -/
def RoundTrips (codec : Codec) (params : List (String × String)) : Prop :=
  ∃ context, parseContext codec (announce codec params) = some (.ok context) ∧
    ∀ name value, context[name]? = some value ↔ (name, value) ∈ params

/-- The name has no place marker that is replaced with the value. -/
def Unmarked (name : String) : Prop := ∀ n ∈ lowestMarker name.toList, 2 < n

/-- The name and the value come through. -/
def Plain (param : String × String) : Prop :=
  param.1 ≠ "" ∧ '<' ∉ param.2.toList ∧ '\r' ∉ param.2.toList

variable {codec : Codec} {params : List (String × String)}

theorem XmlSafe.entities {c : Char} (h : XmlSafe c) :
  entities c = [c]
  := by
  unfold Daemon.entities
  split_ifs <;> subst_vars <;> first | rfl | exact absurd (by decide) h

/-- Safe characters are written as they are. -/
theorem flatMap_entities {cs : List Char} (h : ∀ c ∈ cs, XmlSafe c) :
  cs.flatMap entities = cs
  := by
  rw [flatMap_congr fun c hc => (h c hc).entities, flatMap_singleton']

/-- Safe characters are read as they are. -/
theorem received_of_xmlSafe {cs : List Char} (h : ∀ c ∈ cs, XmlSafe c) :
  received false cs = cs
  := by
  rw [received_eq_self_iff]
  exact ⟨fun hless => h _ hless (by decide), fun hret => h _ hret (by decide)⟩

theorem fromAscii_utf8 (hcd : codec.Documented) {s : String} (h : '\x00' ∉ s.toList) :
  codec.fromAscii (utf8 s.toList) = wired s
  := by
  apply hcd.fromAscii
  intro hm
  apply h (mem_of_mem_utf8 (by decide) hm)

/-- The context has the text whose bytes are read. -/
theorem fromUtf8_cStr (hcd : codec.Documented) {cs : List Char} (h : '\x00' ∉ cs) :
  codec.fromUtf8 (cStr (utf8 cs)) = String.ofList cs
  := by
  have hstr : cStr (utf8 cs) = utf8 (String.ofList cs).toList := by
    rw [String.toList_ofList, cStr, takeWhile_eq_self_iff]
    intro b hb
    rw [decide_eq_true_eq]
    rintro rfl
    apply h (mem_of_mem_utf8 (by decide) hb)
  rw [hstr, hcd.fromUtf8]

theorem Announceable.no_null_name {param : String × String} (h : Announceable param) :
  '\x00' ∉ param.1.toList
  := fun hm => h.safe _ hm (by decide)

/-- The bytes that the parser is given are those of the message of the texts. -/
theorem toStdString_announce (hcd : codec.Documented) (h : ∀ param ∈ params, Announceable param) :
  codec.toStdString (announce codec params) = utf8 (xmlContext params).toList
  := by
  have hmap : (params.map fun (name, value) =>
      (codec.fromAscii (utf8 name.toList), codec.fromAscii (utf8 value.toList))) =
      params.map (Prod.map wired wired) := by
    apply map_congr_left
    rintro ⟨name, value⟩ hprm
    have hn : codec.fromAscii (utf8 name.toList) = wired name :=
      fromAscii_utf8 hcd (h _ hprm).no_null_name
    have hvl : codec.fromAscii (utf8 value.toList) = wired value :=
      fromAscii_utf8 hcd (h _ hprm).no_null
    simp only [hn, hvl, Prod.map]
  rw [announce, hmap, xmlContext_wired, wired, wire, hcd.toStdString]

/-- The text of the element, when the name has no marker. -/
theorem parameterElement_of_unmarked {param : String × String} (hmk : Unmarked param.1)
    (hn : param.1 ≠ "") (h : Announceable param) :
  parameterElement param =
    "<parameter name=\"".toList ++ (param.1.toList.flatMap entities ++
      ("\" value=\"".toList ++ (param.2.toList.flatMap entities ++ "\"/>".toList)))
  := by
  have hnum : valueMarker param.1 = 2 := by
    unfold Unmarked at hmk
    unfold valueMarker
    cases hlow : lowestMarker param.1.toList with
    | none => rfl
    | some n =>
      rw [hlow] at hmk
      apply min_eq_left (hmk n rfl).le
  rw [parameterElement, if_pos ⟨hn, h.ne_empty⟩, arg_arg_parameter, hnum,
    replaceMarker_of_lt _ hmk, if_pos rfl, flatMap_entities h.safe, toList_toXMLEntities]

/-- The context with a name and what is read for a value. -/
def store (context : OrdMap String String) (param : String × String) : OrdMap String String :=
  if param.1 ≠ "" then
    context.insert param.1 (String.ofList (received false param.2.toList))
  else context

theorem null_notMem_received {cs : List Char} (h : '\x00' ∉ cs) :
  '\x00' ∉ received false cs
  := by
  intro hm
  rcases mem_received hm with hm | hm
  · apply h hm
  · apply absurd hm
    decide

/-- The parser stores the name and what it reads for the value. -/
theorem parseChunk_parameterElement (hcd : codec.Documented) {param : String × String}
    (hmk : Unmarked param.1) (h : Announceable param) (r : Residue)
    (context : OrdMap String String) :
  ∃ r', (inRoot r context).parseChunk codec.fromUtf8 (utf8 (parameterElement param)) =
    .ok (inRoot r' (store context param))
  := by
  by_cases hn : param.1 = ""
  · use r
    rw [parameterElement, if_neg (fun hne => hne.1 hn), store, if_neg (not_not.mpr hn)]
    rfl
  · have hcs : param.1.toList ≠ [] := by rwa [ne_eq, String.toList_eq_nil_iff]
    have hds : param.2.toList ≠ [] := by
      rw [ne_eq, String.toList_eq_nil_iff]
      apply h.ne_empty
    obtain ⟨r', hr'⟩ := parseChunk_parameter codec.fromUtf8 r context hcs hds
    use r'
    rw [parameterElement_of_unmarked hmk hn h, hr', received_of_xmlSafe h.safe,
      fromUtf8_cStr hcd h.no_null_name, fromUtf8_cStr hcd (null_notMem_received h.no_null),
      String.ofList_toList, store, if_pos hn]

theorem parseChunk_elements (hcd : codec.Documented) (hmk : ∀ param ∈ params, Unmarked param.1)
    (h : ∀ param ∈ params, Announceable param) (r : Residue) (context : OrdMap String String) :
  ∃ r', (inRoot r context).parseChunk codec.fromUtf8 (utf8 (params.flatMap parameterElement)) =
    .ok (inRoot r' (params.foldl store context))
  := by
  induction params generalizing r context with
  | nil => exact ⟨r, rfl⟩
  | cons param params ih =>
    rw [forall_mem_cons] at hmk h
    obtain ⟨r₁, h₁⟩ := parseChunk_parameterElement hcd hmk.1 h.1 r context
    obtain ⟨r₂, h₂⟩ := ih hmk.2 h.2 r₁ (store context param)
    use r₂
    rw [flatMap_cons, utf8_append, parseChunk_append h₁, h₂, foldl_cons]

/-- A message is parsed when its elements are. -/
theorem parseContext_announce (hcd : codec.Documented)
    (h : ∀ param ∈ params, Announceable param) {context : OrdMap String String}
    (hels : ∀ r, ∃ r', (inRoot r ∅).parseChunk codec.fromUtf8
      (utf8 (params.flatMap parameterElement)) = .ok (inRoot r' context)) :
  parseContext codec (announce codec params) = some (.ok context)
  := by
  obtain ⟨r₁, h₁⟩ := parseChunk_root codec.fromUtf8
  obtain ⟨r₂, h₂⟩ := hels r₁
  obtain ⟨p, h₃, hfinish, hctx⟩ := parseChunk_end codec.fromUtf8 r₂ context
  have hck : Parser.new.begin.parseChunk codec.fromUtf8 (utf8 (xmlContext params).toList) =
      .ok p := by
    rw [toList_xmlContext, utf8_append, utf8_append, utf8_literal _ (by decide),
      parseChunk_append h₁, parseChunk_append h₂, utf8_literal _ (by decide), h₃]
  rw [parseContext, toStdString_announce hcd h, Parser.parse, hck]
  simp only [hfinish, Outcome.result, hctx]

/-! ### Round trips -/

theorem getElem?_store (context : OrdMap String String) (param : String × String) (name : String) :
  (store context param)[name]? =
    if param.1 = name ∧ name ≠ "" then some (String.ofList (received false param.2.toList))
    else context[name]?
  := by
  unfold store
  by_cases hn : param.1 = name
  · subst hn
    by_cases hemp : param.1 = ""
    · simp [hemp]
    · simp [hemp]
  · have hboth : ¬ (param.1 = name ∧ name ≠ "") := fun h => hn h.1
    rw [if_neg hboth]
    split_ifs
    · simp [Std.ExtTreeMap.getElem?_insert, hn]
    · rfl

/-- A name that is not given is not stored. -/
theorem getElem?_foldl_store_of_notMem {name : String} (hn : name ∉ params.map Prod.fst)
    (context : OrdMap String String) :
  (params.foldl store context)[name]? = context[name]?
  := by
  induction params generalizing context with
  | nil => rfl
  | cons param params ih =>
    rw [map_cons, mem_cons, not_or] at hn
    rw [foldl_cons, ih hn.2, getElem?_store, if_neg]
    exact fun h => hn.1 h.1.symm

/-- A name is stored with what is read for its value. -/
theorem getElem?_foldl_store (hnd : (params.map Prod.fst).Nodup) {param : String × String}
    (hprm : param ∈ params) (context : OrdMap String String) :
  (params.foldl store context)[param.1]? =
    if param.1 ≠ "" then some (String.ofList (received false param.2.toList))
    else context[param.1]?
  := by
  induction params generalizing context with
  | nil => cases hprm
  | cons first params ih =>
    rw [map_cons, nodup_cons] at hnd
    rw [foldl_cons]
    rcases mem_cons.mp hprm with rfl | hprm
    · rw [getElem?_foldl_store_of_notMem hnd.1, getElem?_store]
      simp
    · have hne : first.1 ≠ param.1 := by
        intro heq
        apply hnd.1
        rw [heq]
        apply mem_map_of_mem hprm
      have hk : (store context first)[param.1]? = context[param.1]? := by
        rw [getElem?_store, if_neg fun h => hne h.1]
      rw [ih hnd.2 hprm, hk]

theorem parseContext_announce_of_unmarked (hcd : codec.Documented) (h : Announced params)
    (hmk : ∀ param ∈ params, Unmarked param.1) :
  parseContext codec (announce codec params) = some (.ok (params.foldl store ∅))
  := by
  apply parseContext_announce hcd h.each
  intro r
  apply parseChunk_elements hcd hmk h.each

theorem ofList_received_eq_iff (value : String) :
  String.ofList (received false value.toList) = value ↔
    '<' ∉ value.toList ∧ '\r' ∉ value.toList
  := by
  rw [← received_eq_self_iff]
  constructor
  · intro h
    have hlist := congrArg String.toList h
    rwa [String.toList_ofList] at hlist
  · intro h
    rw [h, String.ofList_toList]

/-- The names and values come through exactly when each of them does. -/
theorem roundTrips_iff_plain (hcd : codec.Documented) (h : Announced params)
    (hmk : ∀ param ∈ params, Unmarked param.1) :
  RoundTrips codec params ↔ ∀ param ∈ params, Plain param
  := by
  have hpar := parseContext_announce_of_unmarked hcd h hmk
  constructor
  · rintro ⟨context, hctx, hlook⟩ param hprm
    rw [hpar] at hctx
    cases hctx
    have hvl := (hlook param.1 param.2).mpr hprm
    rw [getElem?_foldl_store h.nodup hprm] at hvl
    split_ifs at hvl with hn
    · exact ⟨hn, (ofList_received_eq_iff param.2).mp (Option.some.inj hvl)⟩
    · simp at hvl
  · intro hpl
    refine ⟨_, hpar, fun name value => ?_⟩
    have hsto : ∀ param ∈ params, (params.foldl store ∅)[param.1]? = some param.2 := by
      intro param hprm
      obtain ⟨hn, hvl⟩ := hpl param hprm
      rw [getElem?_foldl_store h.nodup hprm, if_pos hn, (ofList_received_eq_iff param.2).mpr hvl]
    constructor
    · intro hget
      by_cases hn : name ∈ params.map Prod.fst
      · obtain ⟨param, hprm, rfl⟩ := mem_map.mp hn
        have hvl := (hsto param hprm).symm.trans hget
        rwa [← Option.some.inj hvl]
      · rw [getElem?_foldl_store_of_notMem hn] at hget
        simp at hget
    · intro hprm
      apply hsto _ hprm

/-- Names and values that come through are told apart. -/
theorem RoundTrips.mem_iff {params' : List (String × String)} (h : RoundTrips codec params)
    (h' : RoundTrips codec params')
    (heq : parseContext codec (announce codec params) = parseContext codec (announce codec params'))
    (param : String × String) :
  param ∈ params ↔ param ∈ params'
  := by
  obtain ⟨context, hpar, hlook⟩ := h
  obtain ⟨context', hpar', hlook'⟩ := h'
  rw [hpar, hpar'] at heq
  cases heq
  rw [← hlook, ← hlook']

/-! ### Names with a marker -/

/-- A value that is longer than the name. -/
def longer (name : String) : String :=
  String.ofList (List.replicate (name.length + 1) 'a')

theorem xmlSafe_longer (name : String) :
  ∀ c ∈ (longer name).toList, XmlSafe c
  := by
  intro c hc
  rw [longer, String.toList_ofList] at hc
  rw [eq_of_mem_replicate hc]
  decide

theorem announceable_longer {name : String} (hsafe : ∀ c ∈ name.toList, XmlSafe c) :
  Announceable (name, longer name)
  := by
  refine ⟨hsafe, ?_, fun hnull => xmlSafe_longer name _ hnull (by decide)⟩
  rw [ne_eq, ← String.toList_eq_nil_iff, longer, String.toList_ofList]
  simp

theorem plain_longer {name : String} (hmk : ¬ Unmarked name) :
  Plain (name, longer name)
  := by
  refine ⟨?_, fun hless => xmlSafe_longer name _ hless (by decide),
    fun hret => xmlSafe_longer name _ hret (by decide)⟩
  rintro rfl
  apply hmk
  intro n hn
  cases hn

/-- A name with a marker is sent with the value in it. -/
theorem parameterElement_longer {name : String} {n : ℕ} (hsafe : ∀ c ∈ name.toList, XmlSafe c)
    (hn : lowestMarker name.toList = some n) (hle : n ≤ 2) :
  ∃ cs ds : List Char, name.length < cs.length ∧ '\x00' ∉ cs ∧ ds ≠ [] ∧
    received false cs = cs ∧
    parameterElement (name, longer name) =
      "<parameter name=\"".toList ++ (cs.flatMap entities ++
        ("\" value=\"".toList ++ (ds.flatMap entities ++ "\"/>".toList)))
  := by
  have hne : name ≠ "" := by
    rintro rfl
    cases hn
  have hnum : valueMarker name = n := by
    rw [valueMarker, hn]
    apply min_eq_right hle
  have hsvalue : (toXMLEntities (longer name)).toList = (longer name).toList := by
    rw [toList_toXMLEntities, flatMap_entities (xmlSafe_longer name)]
  have hcs : ∀ c ∈ replaceMarker n (longer name).toList 0 name.toList, XmlSafe c := by
    intro c hc
    rcases mem_replaceMarker hc with hc | hc
    · apply xmlSafe_longer name c hc
    · apply hsafe c hc
  have hds : ∀ c ∈ (if n = 2 then (longer name).toList else "%2".toList), XmlSafe c := by
    split_ifs
    · apply xmlSafe_longer name
    · decide
  refine ⟨replaceMarker n (longer name).toList 0 name.toList,
    if n = 2 then (longer name).toList else "%2".toList, ?_,
    fun hnull => hcs _ hnull (by decide), ?_, received_of_xmlSafe hcs, ?_⟩
  · have hlen := length_le_replaceMarker (longer name).toList hn
    rw [longer, String.toList_ofList, length_replicate] at hlen
    rw [longer, String.toList_ofList]
    omega
  · split_ifs
    · rw [longer, String.toList_ofList]
      simp
    · simp
  · rw [parameterElement, if_pos ⟨hne, (announceable_longer hsafe).ne_empty⟩, arg_arg_parameter,
      hnum, hsvalue, flatMap_entities hcs, flatMap_entities hds]

/-- A name with a marker does not come through with every value. -/
theorem not_roundTrips_longer (hcd : codec.Documented) {name : String}
    (hsafe : ∀ c ∈ name.toList, XmlSafe c) (hmk : ¬ Unmarked name) :
  ¬ RoundTrips codec [(name, longer name)]
  := by
  simp only [Unmarked, not_forall, not_lt] at hmk
  obtain ⟨n, hn, hle⟩ := hmk
  obtain ⟨cs, ds, hlen, hnull, hds, hread, hel⟩ := parameterElement_longer hsafe hn hle
  have hcs : cs ≠ [] := by
    rintro rfl
    cases hlen
  have heach : ∀ param ∈ [(name, longer name)], Announceable param := by
    simpa using announceable_longer hsafe
  rintro ⟨context, hpar, hlook⟩
  have hels : ∀ r, ∃ r', (inRoot r ∅).parseChunk codec.fromUtf8
      (utf8 ([(name, longer name)].flatMap parameterElement)) =
      .ok (inRoot r' ((∅ : OrdMap String String).insert (String.ofList cs)
        (codec.fromUtf8 (cStr (utf8 (received false ds)))))) := by
    intro r
    obtain ⟨r', hr'⟩ := parseChunk_parameter codec.fromUtf8 r ∅ hcs hds
    use r'
    rw [flatMap_singleton, hel, hr', hread, fromUtf8_cStr hcd hnull]
  rw [parseContext_announce hcd heach hels] at hpar
  cases hpar
  have hget := (hlook name (longer name)).mpr (by simp)
  have hname : String.ofList cs ≠ name := by
    rintro rfl
    simp at hlen
  simp [hname] at hget

/-! ### The contract of messages -/

/-- Names and values that the encoder passes through.  Names in which `QString::arg` finds a
place for the value are not, nor are values with a `<`, whose entity is misspelt, or with a
carriage return, which the parser takes for the end of a line. -/
def Transparent (params : List (String × String)) : Prop :=
  ∀ param ∈ params, Unmarked param.1 ∧ Plain param

theorem Transparent.roundTrips (hcd : codec.Documented) (h : Announced params)
    (ht : Transparent params) :
  RoundTrips codec params
  := by
  rw [roundTrips_iff_plain hcd h fun param hprm => (ht param hprm).1]
  exact fun param hprm => (ht param hprm).2

/-- A message of names and values is read back when it is transparent, and then it is the
message of no others.  When the names have no marker, it is read back only then; and there is
no name with a marker that is read back with all values. -/
theorem message_round_trip (hcd : codec.Documented) (h : Announced params) :
  (Transparent params → RoundTrips codec params) ∧
  ((∀ param ∈ params, Unmarked param.1) → RoundTrips codec params → Transparent params) ∧
  (∀ name, (∀ c ∈ name.toList, XmlSafe c) → ¬ Unmarked name →
    ∃ value, Announced [(name, value)] ∧ Plain (name, value) ∧
      ¬ RoundTrips codec [(name, value)]) ∧
  (∀ params', Announced params' → Transparent params → Transparent params' →
    parseContext codec (announce codec params) = parseContext codec (announce codec params') →
    ∀ param, param ∈ params ↔ param ∈ params')
  := by
  refine ⟨fun ht => ht.roundTrips hcd h, fun hmk htrip param hprm => ?_,
    fun name hsafe hmk => ?_, fun params' h' ht ht' heq => ?_⟩
  · exact ⟨hmk param hprm, (roundTrips_iff_plain hcd h hmk).mp htrip param hprm⟩
  · have hannounced : Announced [(name, longer name)] :=
      ⟨nodup_singleton _, by simpa using announceable_longer hsafe⟩
    use longer name
    exact ⟨hannounced, plain_longer hmk, not_roundTrips_longer hcd hsafe hmk⟩
  · apply (ht.roundTrips hcd h).mem_iff (ht'.roundTrips hcd h') heq

/-- Conversions as they are documented.  Bytes that are not UTF-8, of which the documentation
does not speak, are read as an empty text. -/
def qt : Codec where
  toStdString s := s.toList.map fun c => if c.toNat < 256 then c.toUInt8 else byte '?'
  fromUtf8 bs := (decode bs).getD ""
  fromAscii bs := String.ofList (latin1 bs)

theorem documented_qt :
  qt.Documented
  := by
  refine ⟨fun _ _ => rfl, fun bs => ?_, fun s => ?_⟩
  · have hlt : ∀ c ∈ latin1 bs, c.toNat < 256 := by
      intro c hc
      obtain ⟨b, -, rfl⟩ := mem_map.mp hc
      rw [toNat_latin1Char]
      apply b.toNat_lt
    have hmap : qt.toStdString (String.ofList (latin1 bs)) = (latin1 bs).map Char.toUInt8 := by
      simp only [qt, String.toList_ofList]
      apply map_congr_left
      intro c hc
      rw [if_pos (hlt c hc)]
    rw [hmap, map_toUInt8_latin1]
  · simp only [qt, decode_utf8]
    rfl

/-- The name under which the paths of files are announced has no marker. -/
theorem unmarked_fullpath :
  Unmarked "fullpath"
  := by
  have hnone : lowestMarker "fullpath".toList = none := by decide
  intro n hn
  rw [hnone] at hn
  cases hn

/-- A path with quotes, an ampersand and a letter that is not ASCII is read back. -/
theorem message_round_trip_path :
  RoundTrips qt [("fullpath", "/tmp/\"é\"&%1")]
  := by
  have h : Announced [("fullpath", "/tmp/\"é\"&%1")] := by
    refine ⟨by decide, fun param hprm => ?_⟩
    rw [mem_singleton.mp hprm]
    exact ⟨by decide, by decide, by decide⟩
  apply (message_round_trip documented_qt h).1
  intro param hprm
  rw [mem_singleton.mp hprm]
  exact ⟨unmarked_fullpath, by decide, by decide, by decide⟩

/-- Two files whose paths differ are announced alike, and the first path is not read back. -/
theorem paths_confused :
  qt.Documented ∧ Announced [("fullpath", "/tmp/a<b")] ∧
    ¬ RoundTrips qt [("fullpath", "/tmp/a<b")] ∧
    KernelContext.accessContext qt (.file ⟨[], bytes "/tmp/a<b", 4⟩) =
      KernelContext.accessContext qt (.file ⟨[], bytes "/tmp/a$lt;b", 4⟩)
  := by
  have h : Announced [("fullpath", "/tmp/a<b")] := by
    refine ⟨by decide, fun param hprm => ?_⟩
    rw [mem_singleton.mp hprm]
    exact ⟨by decide, by decide, by decide⟩
  have hmk : ∀ param ∈ [("fullpath", "/tmp/a<b")], Unmarked param.1 := by
    intro param hprm
    rw [mem_singleton.mp hprm]
    apply unmarked_fullpath
  have hents : toXMLEntities (qt.fromAscii (bytes "/tmp/a<b")) =
      toXMLEntities (qt.fromAscii (bytes "/tmp/a$lt;b")) := by decide
  refine ⟨documented_qt, h, ?_, ?_⟩
  · intro htrip
    have hpl := (roundTrips_iff_plain documented_qt h hmk).mp htrip _
      (mem_singleton_self _)
    apply hpl.2.1
    decide
  · simp only [KernelContext.accessContext, xmlContext, foldl_cons, foldl_nil, hents]

end Daemon
