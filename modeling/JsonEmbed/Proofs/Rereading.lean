import JsonEmbed.Proofs.NumberText
import JsonEmbed.Proofs.Quotation

/-!
# Values are read back

What a query writes for a value of a document is read as this value again, except that a fraction is
read as `Binary64.reread` says (`Json.read_text_ofJson`). The text of a part stands before a comma,
a closing bracket or the end, where every reader stops; and it begins neither with a blank nor with
a closing bracket, so in front of it a list of parts goes on. `Reads` says both of a reader, a text
and what is read, and passes from the parts to the containers that hold them.
-/

namespace JsonEmbed

namespace Json

open Scanner
open Query (Value)

/-! ### The value that a text is read as -/

/-- The value that the text of a value is read as. -/
def reread : Json → Json
  | null => null
  | boolean b => boolean b
  | number n => number n.reread
  | string s => string s
  | array xs => array (rereadElements xs)
  | object ms => object (rereadMembers ms)
where
  /-- What the texts of the elements of an array are read as. -/
  rereadElements : List Json → List Json
    | [] => []
    | x :: xs => x.reread :: rereadElements xs
  /-- What the texts of the members of an object are read as. -/
  rereadMembers : List (String × Json) → List (String × Json)
    | [] => []
    | (k, v) :: ms => (k, v.reread) :: rereadMembers ms

theorem map_fst_rereadMembers (ms : List (String × Json)) :
    (reread.rereadMembers ms).map Prod.fst = ms.map Prod.fst := by
  induction ms with
  | nil => rfl
  | cons m ms ih => exact congrArg (m.1 :: ·) ih

/-! ### Reading one part of a text -/

/-- Text that begins neither with a blank nor with a closing bracket. -/
def Starts (s : Bytes) : Prop :=
  ∃ b t, s = b :: t ∧ isBlank b = false ∧ b ≠ 0x5d

/-- Text that may follow a value: a comma, a closing bracket or nothing. -/
def IsRest (s : Bytes) : Prop :=
  s = [] ∨ ∃ b t, s = b :: t ∧ (b = 0x2c ∨ b = 0x5d ∨ b = 0x7d)

/-- The reader reads the text as the value, whatever follows. -/
structure Reads (item : Bytes → ReadResult Json) (text : String) (v : Json) : Prop where
  starts : Starts (Utf8.encode text)
  reads : ∀ s, IsRest s → item (Utf8.encode text ++ s) = .ok (v, s)

/-- The reader reads the text as the member, whatever follows. -/
def ReadsMember (item : Bytes → ReadResult Json) (text : String) (m : String × Json) : Prop :=
  ∀ s, IsRest s → ∃ body, Utf8.encode text ++ s = 0x22 :: body ∧ member item body = .ok (m, s)

theorem Starts.append {s : Bytes} (h : Starts s) (t : Bytes) : Starts (s ++ t) := by
  obtain ⟨b, rest, rfl, hblank, hclosing⟩ := h
  exact ⟨b, rest ++ t, rfl, hblank, hclosing⟩

theorem skipBlank_of_starts {s : Bytes} (h : Starts s) : skipBlank s = s := by
  obtain ⟨b, t, rfl, hblank, -⟩ := h
  exact List.dropWhile_cons_of_neg (by rw [hblank]; exact Bool.false_ne_true)

theorem isRest_nil : IsRest [] :=
  Or.inl rfl

theorem isRest_comma (s : Bytes) : IsRest (0x2c :: s) :=
  Or.inr ⟨0x2c, s, rfl, Or.inl rfl⟩

theorem isRest_bracket (s : Bytes) : IsRest (0x5d :: s) :=
  Or.inr ⟨0x5d, s, rfl, Or.inr (Or.inl rfl)⟩

theorem isRest_brace (s : Bytes) : IsRest (0x7d :: s) :=
  Or.inr ⟨0x7d, s, rfl, Or.inr (Or.inr rfl)⟩

/-- A number ends where anything that may follow a value begins. -/
theorem IsRest.isEnd {s : Bytes} (h : IsRest s) : Numeral.IsEnd s := by
  rcases h with rfl | ⟨b, t, rfl, rfl | rfl | rfl⟩
  · exact ⟨rfl, fun t ↦ ⟨by simp, by simp, by simp⟩⟩
  all_goals exact ⟨rfl, fun t ↦ ⟨by simp, by simp, by simp⟩⟩

/-! ### Reading lists of parts -/

theorem encode_separated_cons (first second : String) (texts : List String) :
    Utf8.encode (separated "," (first :: second :: texts)) =
      Utf8.encode first ++ 0x2c :: Utf8.encode (separated "," (second :: texts)) := by
  show Utf8.encode (first ++ "," ++ separated "," (second :: texts)) = _
  rw [Utf8.encode_append, Utf8.encode_append, List.append_assoc]
  rfl

/-- There are no more parts than bytes, if the byte behind them is counted, too. -/
theorem length_le_length_append (texts : List String) (b : UInt8) (rest : Bytes) :
    texts.length ≤ (Utf8.encode (separated "," texts) ++ b :: rest).length := by
  induction texts with
  | nil => exact Nat.zero_le _
  | cons first texts ih =>
    cases texts with
    | nil =>
      simp only [List.length_append, List.length_cons, List.length_nil]
      omega
    | cons second texts =>
      rw [encode_separated_cons]
      simp only [List.length_append, List.length_cons] at ih ⊢
      omega

section Lists

variable {item : Bytes → ReadResult Json} {bound : Nat} {s rest : Bytes}

theorem elements_last {x : Json} (hx : item s = .ok (x, 0x5d :: rest)) :
    elements item (bound + 1) s = .ok ([x], rest) := by
  rw [elements, hx]
  rfl

theorem elements_comma {x : Json} {xs : List Json} {t : Bytes}
    (hx : item s = .ok (x, 0x2c :: t)) (ht : Starts t)
    (hxs : elements item bound t = .ok (xs, rest)) :
    elements item (bound + 1) s = .ok (x :: xs, rest) := by
  have hskip := skipBlank_of_starts ht
  obtain ⟨b, t, rfl, -, hclosing⟩ := ht
  have hcomma : skipBlank (0x2c :: b :: t) = 0x2c :: b :: t := rfl
  rw [elements, hx]
  simp only [hcomma, hskip]
  split
  · next h => exact absurd h (List.cons_ne_nil _ _)
  · next h => exact absurd (List.cons.inj h).1 hclosing
  · rw [hxs]

/-- A list of parts begins as its first one does. -/
theorem starts_separated {text : String} {x : Json} (hx : Reads item text x) (texts : List String)
    (s : Bytes) : Starts (Utf8.encode (separated "," (text :: texts)) ++ s) := by
  cases texts with
  | nil => exact hx.starts.append s
  | cons second texts =>
    rw [encode_separated_cons, List.append_assoc]
    exact hx.starts.append _

/-- The parts of an array, read one after the other. -/
theorem elements_separated {texts : List String} {xs : List Json}
    (h : List.Forall₂ (Reads item) texts xs) (hne : texts ≠ []) (hbound : texts.length ≤ bound)
    (rest : Bytes) :
    elements item bound (Utf8.encode (separated "," texts) ++ 0x5d :: rest) = .ok (xs, rest) := by
  induction h generalizing bound with
  | nil => exact absurd rfl hne
  | @cons text x texts xs hx hxs ih =>
    obtain ⟨bound, rfl⟩ := Nat.exists_eq_succ_of_ne_zero (Nat.ne_zero_of_lt hbound)
    have htail : texts.length ≤ bound := Nat.le_of_succ_le_succ hbound
    -- the last part has the closing bracket behind it, any other a comma
    cases hxs with
    | nil => exact elements_last (hx.reads _ (isRest_bracket rest))
    | @cons second y texts ys hy hys =>
      rw [encode_separated_cons, List.append_assoc, List.cons_append]
      exact elements_comma (hx.reads _ (isRest_comma _)) (starts_separated hy texts _)
        (ih (List.cons_ne_nil _ _) htail)

/-- The parts of an array between its brackets. -/
theorem arrayBody_separated {texts : List String} {xs : List Json}
    (h : List.Forall₂ (Reads item) texts xs) (rest : Bytes) :
    arrayBody item (Utf8.encode (separated "," texts) ++ 0x5d :: rest) = .ok (array xs, rest) := by
  cases h with
  | nil => rfl
  | @cons text x texts xs hx hxs =>
    have hparts := List.Forall₂.cons hx hxs
    have hstarts := starts_separated hx texts (0x5d :: rest)
    have hskip := skipBlank_of_starts hstarts
    have hbound := length_le_length_append (text :: texts) 0x5d rest
    have hxs := elements_separated hparts (List.cons_ne_nil _ _) hbound rest
    obtain ⟨b, t, htext, -, hclosing⟩ := hstarts
    rw [arrayBody, hskip]
    rw [htext] at hxs ⊢
    split
    · next h => exact absurd h (List.cons_ne_nil _ _)
    · next h => exact absurd (List.cons.inj h).1 hclosing
    · rw [hxs]

/-! ### Reading lists of members -/

/-- A key, a colon and the text of a value make a member. -/
theorem readsMember_quote {text : String} {v : Json} (hv : Reads item text v) (key : String) :
    ReadsMember item (Value.quote key ++ ":" ++ text) (key, v) := by
  intro s hs
  obtain ⟨body, hbody, hkey⟩ := string_quote key (0x3a :: (Utf8.encode text ++ s))
  refine ⟨body, ?_, ?_⟩
  · rw [Utf8.encode_append, Utf8.encode_append, List.append_assoc, List.append_assoc, ← hbody]
    rfl
  · rw [member, hkey]
    show (item (Utf8.encode text ++ s)).bind _ = _
    rw [hv.reads s hs]
    rfl

theorem memberList_last {m : String × Json} (hm : member item s = .ok (m, 0x7d :: rest)) :
    memberList item (bound + 1) s = .ok ([m], rest) := by
  rw [memberList, hm]
  rfl

theorem memberList_comma {m : String × Json} {ms : List (String × Json)} {t : Bytes}
    (hm : member item s = .ok (m, 0x2c :: 0x22 :: t))
    (hms : memberList item bound t = .ok (ms, rest)) :
    memberList item (bound + 1) s = .ok (m :: ms, rest) := by
  have hcomma : skipBlank (0x2c :: 0x22 :: t) = 0x2c :: 0x22 :: t := rfl
  have hquote : skipBlank (0x22 :: t) = 0x22 :: t := rfl
  rw [memberList, hm]
  simp only [hcomma, hquote]
  rw [hms]

/-- The members of an object, read one after the other. -/
theorem memberList_separated {texts : List String} {ms : List (String × Json)}
    (h : List.Forall₂ (ReadsMember item) texts ms) (hne : texts ≠ [])
    (hbound : texts.length ≤ bound) (rest : Bytes) :
    ∃ body, Utf8.encode (separated "," texts) ++ 0x7d :: rest = 0x22 :: body ∧
      memberList item bound body = .ok (ms, rest) := by
  induction h generalizing bound with
  | nil => exact absurd rfl hne
  | @cons text m texts ms hm hms ih =>
    obtain ⟨bound, rfl⟩ := Nat.exists_eq_succ_of_ne_zero (Nat.ne_zero_of_lt hbound)
    have htail : texts.length ≤ bound := Nat.le_of_succ_le_succ hbound
    cases hms with
    | nil =>
      obtain ⟨body, hbody, hread⟩ := hm _ (isRest_brace rest)
      exact ⟨body, hbody, memberList_last hread⟩
    | cons hn hns =>
      obtain ⟨tail, htext, hlist⟩ := ih (List.cons_ne_nil _ _) htail
      obtain ⟨body, hbody, hread⟩ := hm _ (isRest_comma (0x22 :: tail))
      refine ⟨body, ?_, memberList_comma hread hlist⟩
      rw [encode_separated_cons, List.append_assoc, List.cons_append, htext, hbody]

/-- The members of an object between its braces. -/
theorem objectBody_separated {texts : List String} {ms : List (String × Json)}
    (h : List.Forall₂ (ReadsMember item) texts ms) (rest : Bytes) :
    objectBody item (Utf8.encode (separated "," texts) ++ 0x7d :: rest) =
      .ok (object (ofMembers ms), rest) := by
  cases h with
  | nil => rfl
  | @cons text m texts ms hm hms =>
    have hbound := length_le_length_append (text :: texts) 0x7d rest
    obtain ⟨body, hbody, hlist⟩ := memberList_separated (List.Forall₂.cons hm hms)
      (List.cons_ne_nil _ _) hbound rest
    have hquote : skipBlank (0x22 :: body) = 0x22 :: body := rfl
    rw [hbody, List.length_cons] at hlist
    rw [hbody, objectBody]
    simp only [hquote]
    rw [hlist]

end Lists

/-! ### Reading values -/

variable {d : Nat}

theorem starts_numberText {n : Number} (h : n.Valid) : Starts (Utf8.encode n.text) := by
  obtain ⟨b, t, htext, rfl | hb⟩ := exists_encode_numberText_eq_cons h
  · exact ⟨0x2d, t, htext, rfl, by decide⟩
  · exact ⟨b, t, htext, isBlank_of_isDigit hb, ne_of_isDigit hb (by decide)⟩

theorem forall₂_elementTexts {item : Bytes → ReadResult Json} {xs : List Json}
    (h : ∀ x ∈ xs, Reads item (Value.ofJson x).text x.reread) :
    List.Forall₂ (Reads item) (Value.text.elementTexts (Value.ofJson.elementsOf xs))
      (reread.rereadElements xs) := by
  induction xs with
  | nil => exact .nil
  | cons x xs ih =>
    obtain ⟨hx, hxs⟩ := List.forall_mem_cons.1 h
    exact .cons hx (ih hxs)

theorem forall₂_memberTexts {item : Bytes → ReadResult Json} {ms : List (String × Json)}
    (h : ∀ m ∈ ms, Reads item (Value.ofJson m.2).text m.2.reread) :
    List.Forall₂ (ReadsMember item) (Value.text.memberTexts (Value.ofJson.membersOf ms))
      (reread.rereadMembers ms) := by
  induction ms with
  | nil => exact .nil
  | cons m ms ih =>
    obtain ⟨hm, hms⟩ := List.forall_mem_cons.1 h
    exact .cons (readsMember_quote hm m.1) (ih hms)

theorem value_string (text : String) (s : Bytes) :
    value d (Utf8.encode (Value.quote text) ++ s) = .ok (string text, s) := by
  obtain ⟨body, hbody, hread⟩ := string_quote text s
  have hquote : skipBlank (0x22 :: body) = 0x22 :: body := rfl
  rw [hbody, value.eq_def, hquote]
  simp only [hread]

theorem encode_text_array (xs : List Json) :
    Utf8.encode (Value.ofJson (array xs)).text = 0x5b ::
      (Utf8.encode (separated "," (Value.text.elementTexts (Value.ofJson.elementsOf xs))) ++
        [0x5d]) := by
  rw [Value.ofJson, Value.text, Utf8.encode_append, Utf8.encode_append]
  rfl

theorem encode_text_object (ms : List (String × Json)) :
    Utf8.encode (Value.ofJson (object ms)).text = 0x7b ::
      (Utf8.encode (separated "," (Value.text.memberTexts (Value.ofJson.membersOf ms))) ++
        [0x7d]) := by
  rw [Value.ofJson, Value.text, Utf8.encode_append, Utf8.encode_append]
  rfl

/-- The text of a value within limits is read wherever a value may stand. -/
theorem reads_text_ofJson {v : Json} (h : v.WithinLimits d) :
    Reads (value d) (Value.ofJson v).text v.reread := by
  -- inside a container, both the limits and the reader leave one level less
  induction h with
  | null =>
    refine ⟨⟨0x6e, _, rfl, rfl, by decide⟩, fun s _ ↦ ?_⟩
    rw [value.eq_def]
    rfl
  | boolean b =>
    cases b with
    | false =>
      refine ⟨⟨0x66, _, rfl, rfl, by decide⟩, fun s _ ↦ ?_⟩
      rw [value.eq_def]
      rfl
    | true =>
      refine ⟨⟨0x74, _, rfl, rfl, by decide⟩, fun s _ ↦ ?_⟩
      rw [value.eq_def]
      rfl
  | @number d n hn =>
    rw [Value.ofJson, Value.text_ofNumeral hn]
    exact ⟨starts_numberText hn, fun s hs ↦ value_numberText d hs.isEnd hn⟩
  | string s =>
    refine ⟨?_, fun rest _ ↦ value_string s rest⟩
    obtain ⟨body, hbody, -⟩ := string_quote s []
    rw [List.append_nil] at hbody
    exact ⟨0x22, body, hbody, rfl, by decide⟩
  | @array d xs _ ih =>
    have htext := encode_text_array xs
    refine ⟨⟨0x5b, _, htext, rfl, by decide⟩, fun s _ ↦ ?_⟩
    rw [htext, List.cons_append, List.append_assoc, value.eq_def]
    exact arrayBody_separated (forall₂_elementTexts ih) s
  | @object d ms hkeys _ ih =>
    have htext := encode_text_object ms
    have hreread : ((reread.rereadMembers ms).map Prod.fst).Nodup := by
      rwa [map_fst_rereadMembers]
    refine ⟨⟨0x7b, _, htext, rfl, by decide⟩, fun s _ ↦ ?_⟩
    rw [htext, List.cons_append, List.append_assoc, value.eq_def, reread,
      ← ofMembers_of_nodup hreread]
    exact objectBody_separated (forall₂_memberTexts ih) s

/-- **What a query writes for a value is read as this value, its fractions reread.** -/
theorem read_text_ofJson {v : Json} (h : v.WithinLimits maxDepth) :
    read (Utf8.encode (Value.ofJson v).text) = .ok v.reread := by
  have hvalue := (reads_text_ofJson h).reads [] isRest_nil
  rw [List.append_nil] at hvalue
  rw [read, document, hvalue]
  rfl

theorem read_numberText {n : Number} (h : n.Valid) :
    read (Utf8.encode n.text) = .ok (number n.reread) := by
  have hread := read_text_ofJson (.number h)
  rwa [Value.ofJson, Value.text_ofNumeral h] at hread

end Json

end JsonEmbed
