import PropertyFile.Proofs.Json.Numerals

namespace PropertyFile.Json

open Number

/-- A value whose numerals are ones that JSON allows, and whose strings and keys are all there. -/
inductive Proper : Json → Prop
  | null : Proper null
  | bool (b : Bool) : Proper (bool b)
  | number {n : Numeral} (h : n.Proper) : Proper (number n)
  | string (s : String) : Proper (string (some s))
  | array {items : List Json} (values : ∀ j ∈ items, Proper j) : Proper (array items)
  | object {fields : List (Option String × Json)} (keys : ∀ f ∈ fields, f.1.isSome = true)
    (values : ∀ f ∈ fields, Proper f.2) : Proper (object fields)

mutual

def tokens : Json → List Token
  | .null => [.null]
  | .bool b => [.bool b]
  | .number n => [.number n]
  | .string text => [.string text]
  | .array [] => [.openArray, .closeArray]
  | .array (j :: items) => .openArray :: (j.tokens ++ itemTokens items)
  | .object [] => [.openObject, .closeObject]
  | .object ((key, j) :: fields) =>
    .openObject :: .string key :: .colon :: (j.tokens ++ fieldTokens fields)

def itemTokens : List Json → List Token
  | [] => [.closeArray]
  | j :: items => .comma :: (j.tokens ++ itemTokens items)

def fieldTokens : List (Option String × Json) → List Token
  | [] => [.closeObject]
  | (key, j) :: fields => .comma :: .string key :: .colon :: (j.tokens ++ fieldTokens fields)

end

theorem hex4?_hexDigits : ∀ n < 32, hex4? (Nat.digitChar (n / Nat.pow 16 3 % 16))
    (Nat.digitChar (n / Nat.pow 16 2 % 16)) (Nat.digitChar (n / Nat.pow 16 1 % 16))
    (Nat.digitChar (n / Nat.pow 16 0 % 16)) = some n := by decide

theorem lexString_unicode (done : List Nat) {a b c d : Char} {n : Nat} (h : hex4? a b c d = some n)
    (rest : List Char) :
    lexString done ('\\' :: 'u' :: a :: b :: c :: d :: rest) = lexString (n :: done) rest := by
  rw [lexString, h]

theorem lexString_escape (done : List Nat) (c : Char) (rest : List Char) :
    lexString done ((escape c).toList ++ rest) = lexString (c.toNat :: done) rest := by
  rw [escape]
  split
  · next h => subst h; rfl
  split
  · next h => subst h; rfl
  split
  · next h => subst h; rfl
  split
  · next h => subst h; rfl
  split
  · next h => subst h; rfl
  split
  · next h => subst h; rfl
  split
  · next h => subst h; rfl
  split
  · next hlow =>
    have hdigits : (Text.hexDigits 4 c.toNat).toList =
        [Nat.digitChar (c.toNat / Nat.pow 16 3 % 16), Nat.digitChar (c.toNat / Nat.pow 16 2 % 16),
          Nat.digitChar (c.toNat / Nat.pow 16 1 % 16),
          Nat.digitChar (c.toNat / Nat.pow 16 0 % 16)] := by
      rw [Text.hexDigits, String.toList_ofList]
      rfl
    rw [String.toList_append, hdigits]
    exact lexString_unicode done (hex4?_hexDigits c.toNat hlow) rest
  · next hquote hslash _ _ _ _ _ hhigh =>
    -- Such a character stands for itself: it starts neither the end of the string nor an escape.
    rw [Char.toString_eq_singleton, String.toList_singleton, List.singleton_append]
    conv_lhs => unfold lexString
    split
    · next heq => cases heq
    · next heq => exact (hquote (List.cons.inj heq).1).elim
    · next heq => exact (hslash (List.cons.inj heq).1).elim
    · next heq => exact (hslash (List.cons.inj heq).1).elim
    · next heq =>
      obtain ⟨rfl, rfl⟩ := List.cons.inj heq
      rw [decide_eq_false hhigh, decide_eq_false hslash, Bool.or_self, if_neg Bool.false_ne_true]

theorem lexString_text (s rest : List Char) (done : List Nat) :
    lexString done (s.flatMap (fun c ↦ (escape c).toList) ++ '"' :: rest) =
      some (done.reverse ++ s.map Char.toNat, rest) := by
  induction s generalizing done with
  | nil => rw [List.flatMap_nil, List.nil_append, lexString, List.map_nil, List.append_nil]
  | cons c s ih =>
    rw [List.flatMap_cons, List.append_assoc, lexString_escape, ih, List.reverse_cons,
      List.append_assoc, List.map_cons, List.singleton_append]

theorem joinUnits_text (s done : List Char) :
    joinUnits done (s.map Char.toNat) = some (done.reverse ++ s) := by
  have hwhole : ∀ c : Char, (0xD800 ≤ c.toNat && c.toNat < 0xE000) = false ∧
      (0xD800 ≤ c.toNat && c.toNat < 0xDC00) = false ∧
        (0xDC00 ≤ c.toNat && c.toNat < 0xE000) = false := by
    intro c
    have hvalid : c.toNat < 0xD800 ∨ 0xDFFF < c.toNat ∧ c.toNat < 0x110000 := c.valid
    simp only [Bool.and_eq_false_iff, decide_eq_false_iff_not]
    omega
  induction s generalizing done with
  | nil => rw [List.map_nil, joinUnits, List.append_nil]
  | cons c s ih =>
    obtain ⟨hwhole, hhigh, hlow⟩ := hwhole c
    have hstep : joinUnits done (c.toNat :: s.map Char.toNat) =
        joinUnits (c :: done) (s.map Char.toNat) := by
      cases s with
      | nil => simp only [List.map_nil, joinUnits, hwhole, Bool.false_eq_true, if_false,
          Char.ofNat_toNat]
      | cons d s => simp only [List.map_cons, joinUnits, hhigh, hlow, Bool.false_eq_true, if_false,
          Char.ofNat_toNat]
    rw [List.map_cons, hstep, ih, List.reverse_cons, List.append_assoc, List.singleton_append]

theorem tokensFrom_space {c : Char} (h : isSpace c = true) (done : List Token) (s : List Char) :
    tokensFrom done (c :: s) = tokensFrom done s := by
  rw [tokensFrom, if_pos h]

theorem tokensFrom_token {c : Char} {s rest : List Char} {t : Token} (hspace : isSpace c = false)
    (h : lexToken c s = some (t, rest)) (done : List Token) :
    tokensFrom done (c :: s) = tokensFrom (t :: done) rest := by
  rw [tokensFrom, if_neg (Bool.eq_false_iff.mp hspace)]
  split
  · next t' rest' h' =>
    obtain ⟨rfl, rfl⟩ := Prod.mk.inj (Option.some.inj (h'.symm.trans h))
    rfl
  · next h' => cases h'.symm.trans h

/-- A text that is cut into the given tokens wherever it stands. -/
def Mark (s : String) (ts : List Token) : Prop :=
  ∀ done rest, tokensFrom done (s.toList ++ rest) = tokensFrom (ts.reverse ++ done) rest

theorem Mark.append {s s' : String} {ts ts' : List Token} (h : Mark s ts) (h' : Mark s' ts') :
    Mark (s ++ s') (ts ++ ts') := by
  intro done rest
  rw [String.toList_append, List.append_assoc, h, h', List.reverse_append, List.append_assoc]

theorem mark_openArray : Mark "[" [.openArray] := fun done _ ↦ tokensFrom_token rfl rfl done

theorem mark_closeArray : Mark "]" [.closeArray] := fun done _ ↦ tokensFrom_token rfl rfl done

theorem mark_openObject : Mark "\x7b" [.openObject] := fun done _ ↦ tokensFrom_token rfl rfl done

theorem mark_closeObject : Mark "\x7d" [.closeObject] := fun done _ ↦ tokensFrom_token rfl rfl done

theorem mark_comma : Mark "," [.comma] := fun done _ ↦ tokensFrom_token rfl rfl done

theorem mark_null : Mark "null" [.null] := fun done _ ↦ tokensFrom_token rfl rfl done

theorem mark_bool (b : Bool) : Mark (if b then "true" else "false") [.bool b] := by
  cases b <;> exact fun done _ ↦ tokensFrom_token rfl rfl done

theorem mark_spaces (n : Nat) : Mark (String.ofList (List.replicate n ' ')) [] := by
  intro done rest
  rw [String.toList_ofList]
  induction n with
  | zero => rfl
  | succ n ih =>
    rw [List.replicate_succ, List.cons_append, tokensFrom_space rfl]
    exact ih

theorem mark_newline (pretty : Bool) (depth : Nat) : Mark (newline pretty depth) [] := by
  cases pretty with
  | false => exact fun _ _ ↦ rfl
  | true =>
    have hline : Mark "\n" [] := fun done rest ↦ tokensFrom_space rfl done rest
    exact hline.append (mark_spaces _)

theorem mark_afterKey (pretty : Bool) : Mark (afterKey pretty) [.colon] := by
  intro done rest
  have hcolon : ∀ rest, tokensFrom done (':' :: rest) = tokensFrom (.colon :: done) rest :=
    fun _ ↦ tokensFrom_token rfl rfl done
  cases pretty with
  | false => exact hcolon rest
  | true => exact (hcolon _).trans (tokensFrom_space rfl _ rest)

def quoted (s : String) : String := writeString "" (some s)

theorem foldl_escape (cs : List Char) (out : String) :
    (cs.foldl (fun out c ↦ out ++ escape c) out).toList =
      out.toList ++ cs.flatMap fun c ↦ (escape c).toList := by
  induction cs generalizing out with
  | nil => rw [List.foldl_nil, List.flatMap_nil, List.append_nil]
  | cons c cs ih => rw [List.foldl_cons, ih, String.toList_append, List.append_assoc,
      List.flatMap_cons]

theorem toList_writeString (out s : String) : (writeString out (some s)).toList =
    out.toList ++ '"' :: (s.toList.flatMap (fun c ↦ (escape c).toList) ++ ['"']) := by
  rw [writeString, String.toList_push, foldl_escape, String.toList_push, Option.getD_some,
    List.append_assoc, List.append_assoc, List.singleton_append]

theorem writeString_eq (out s : String) : writeString out (some s) = out ++ quoted s := by
  apply String.toList_inj.mp
  rw [String.toList_append, quoted, toList_writeString, toList_writeString]
  rfl

theorem mark_quoted (s : String) : Mark (quoted s) [.string (some s)] := by
  intro done rest
  have htext : (quoted s).toList ++ rest =
      '"' :: (s.toList.flatMap (fun c ↦ (escape c).toList) ++ '"' :: rest) := by
    rw [quoted, toList_writeString, String.toList_empty, List.nil_append, List.cons_append,
      List.append_assoc, List.singleton_append]
  have hlex : lexToken '"' (s.toList.flatMap (fun c ↦ (escape c).toList) ++ '"' :: rest) =
      some (.string (some s), rest) := by
    rw [lexToken, lexString_text, List.reverse_nil, List.nil_append, Option.map_some,
      joinUnits_text, List.reverse_nil, List.nil_append, Option.map_some, String.ofList_toList]
  rw [htext]
  exact tokensFrom_token rfl hlex done

def Cut (out : String) (ts : List Token) : Prop :=
  ∀ rest, tokensFrom [] (out.toList ++ rest) = tokensFrom ts.reverse rest

/-- A text that is cut into the given tokens, if what follows does not go on with a number. -/
def CutBefore (out : String) (ts : List Token) : Prop :=
  ∀ rest, Ends rest → tokensFrom [] (out.toList ++ rest) = tokensFrom ts.reverse rest

section

variable {out s : String} {ts ts' : List Token}

theorem Cut.before (h : Cut out ts) : CutBefore out ts := fun rest _ ↦ h rest

theorem Cut.mark (h : Cut out ts) (hs : Mark s ts') : Cut (out ++ s) (ts ++ ts') := by
  intro rest
  rw [String.toList_append, List.append_assoc, h, hs, List.reverse_append]

theorem CutBefore.mark (h : CutBefore out ts) (hs : Mark s ts')
    (hends : ∀ rest, Ends (s.toList ++ rest)) : Cut (out ++ s) (ts ++ ts') := by
  intro rest
  rw [String.toList_append, List.append_assoc, h _ (hends rest), hs, List.reverse_append]

end

theorem ne_of_start {c d : Char} (h : c = '-' ∨ isDigit c = true)
    (hd : ¬(d = '-' ∨ isDigit d = true)) : c ≠ d := fun heq ↦ hd (heq ▸ h)

theorem lexToken_of_start {c : Char} (h : c = '-' ∨ isDigit c = true) : isSpace c = false ∧
    ∀ s, lexToken c s = (lexNumber (c :: s)).map fun r ↦ (.number r.1, r.2) := by
  constructor
  · simp only [isSpace, Bool.or_eq_false_iff, decide_eq_false_iff_not]
    exact ⟨⟨⟨ne_of_start h (by decide), ne_of_start h (by decide)⟩, ne_of_start h (by decide)⟩,
      ne_of_start h (by decide)⟩
  · intro s
    unfold lexToken
    split <;> first
      | rfl
      | exact (ne_of_start h (by decide) rfl).elim

theorem start_chars {n : Numeral} (h : n.Proper) :
    ∃ c s, n.chars = c :: s ∧ (c = '-' ∨ isDigit c = true) := by
  obtain ⟨c, cs, hc⟩ := List.exists_cons_of_ne_nil h.whole.1
  rw [chars_eq, signed]
  split
  · exact ⟨_, _, rfl, .inl rfl⟩
  · exact ⟨c, _, by rw [hc]; rfl, .inr (h.whole.2 c (hc ▸ List.mem_cons_self))⟩

theorem Cut.number {out : String} {ts : List Token} (h : Cut out ts) {n : Numeral}
    (hn : n.Proper) : CutBefore (out ++ String.ofList n.chars) (ts ++ [.number n]) := by
  intro rest hrest
  obtain ⟨c, s, hchars, hstart⟩ := start_chars hn
  obtain ⟨hspace, htoken⟩ := lexToken_of_start hstart
  have hlex := lexNumber_append hn hrest
  rw [hchars, List.cons_append] at hlex
  have htoken : lexToken c (s ++ rest) = some (.number n, rest) := by
    rw [htoken, hlex, Option.map_some]
  rw [String.toList_append, List.append_assoc, h, String.toList_ofList, hchars, List.cons_append,
    tokensFrom_token hspace htoken, List.reverse_append, List.reverse_singleton,
    List.singleton_append]

theorem ends_cons {c : Char} (h : isDigit c = false ∧ c ≠ '.' ∧ c ≠ 'e' ∧ c ≠ 'E')
    (s : List Char) : Ends (c :: s) := by
  intro d hd
  obtain rfl := Option.some.inj hd
  exact h

theorem ends_newline (pretty : Bool) (depth : Nat) {rest : List Char} (h : Ends rest) :
    Ends ((newline pretty depth).toList ++ rest) := by
  cases pretty with
  | false => exact h
  | true =>
    rw [newline, if_pos rfl, String.toList_append, List.append_assoc]
    exact ends_cons (by decide) _

section

variable {out : String} {ts : List Token} {pretty : Bool} {depth : Nat}

theorem Cut.newline (h : Cut out ts) : Cut (out ++ newline pretty depth) ts := by
  have hline := h.mark (mark_newline pretty depth)
  rwa [List.append_nil] at hline

theorem CutBefore.newline (h : CutBefore out ts) :
    CutBefore (out ++ newline pretty depth) ts := by
  intro rest hrest
  rw [String.toList_append, List.append_assoc, h _ (ends_newline pretty depth hrest)]
  exact mark_newline pretty depth ts.reverse rest

theorem CutBefore.comma (h : CutBefore out ts) :
    Cut (out ++ "," ++ Json.newline pretty depth) (ts ++ [.comma]) :=
  (h.mark mark_comma fun _ ↦ ends_cons (by decide) _).newline

theorem Cut.key (h : Cut out ts) (key : String) :
    Cut (writeString out (some key) ++ afterKey pretty) (ts ++ [.string (some key), .colon]) := by
  have hkey := (h.mark (mark_quoted key)).mark (mark_afterKey pretty)
  rwa [← writeString_eq, List.append_assoc] at hkey

/-- That a value is written as its tokens, after whatever was written before. -/
def Written (j : Json) : Prop :=
  ∀ {pretty depth out ts}, Cut out ts → CutBefore (write pretty depth out j) (ts ++ j.tokens)

/-- A value inside brackets is followed by a comma or a closing bracket, so a number in it ends. -/
theorem cut_writeItems {items : List Json} (hitems : ∀ j ∈ items, Written j)
    (h : CutBefore out ts) : Cut (writeItems pretty depth out items) (ts ++ itemTokens items) := by
  induction items generalizing out ts with
  | nil =>
    rw [writeItems, itemTokens]
    exact h.newline.mark mark_closeArray fun _ ↦ ends_cons (by decide) _
  | cons j items ih =>
    obtain ⟨hj, hitems⟩ := List.forall_mem_cons.mp hitems
    have hts : ts ++ itemTokens (j :: items) = ts ++ [.comma] ++ j.tokens ++ itemTokens items := by
      simp only [itemTokens, List.append_assoc, List.cons_append, List.nil_append]
    rw [writeItems, hts]
    exact ih hitems (hj h.comma)

theorem cut_writeFields {fields : List (Option String × Json)}
    (hkeys : ∀ f ∈ fields, f.1.isSome = true) (hfields : ∀ f ∈ fields, Written f.2)
    (h : CutBefore out ts) :
    Cut (writeFields pretty depth out fields) (ts ++ fieldTokens fields) := by
  induction fields generalizing out ts with
  | nil =>
    rw [writeFields, fieldTokens]
    exact h.newline.mark mark_closeObject fun _ ↦ ends_cons (by decide) _
  | cons f fields ih =>
    obtain ⟨key, j⟩ := f
    obtain ⟨hkey, hkeys'⟩ := List.forall_mem_cons.mp hkeys
    obtain ⟨hj, hfields'⟩ := List.forall_mem_cons.mp hfields
    obtain ⟨key, rfl⟩ := Option.isSome_iff_exists.mp hkey
    have hts : ts ++ fieldTokens ((some key, j) :: fields) =
        ts ++ [.comma] ++ [.string (some key), .colon] ++ j.tokens ++ fieldTokens fields := by
      simp only [fieldTokens, List.append_assoc, List.cons_append, List.nil_append]
    rw [writeFields, hts]
    exact ih hkeys' hfields' (hj (h.comma.key key))

theorem Proper.written {j : Json} (h : j.Proper) : Written j := by
  induction h with
  | null => exact fun h ↦ (h.mark mark_null).before
  | bool b => exact fun h ↦ (h.mark (mark_bool b)).before
  | number hn => exact fun h ↦ h.number hn
  | string s =>
    intro pretty depth out ts h
    rw [write, writeString_eq]
    exact (h.mark (mark_quoted s)).before
  | @array items _ ih =>
    intro pretty depth out ts h
    cases items with
    | nil =>
      have hmark : Mark "[]" [.openArray, .closeArray] := mark_openArray.append mark_closeArray
      exact (h.mark hmark).before
    | cons j items =>
      obtain ⟨hj, hitems⟩ := List.forall_mem_cons.mp ih
      have hts : ts ++ (Json.array (j :: items)).tokens =
          ts ++ [.openArray] ++ j.tokens ++ itemTokens items := by
        simp only [tokens, List.append_assoc, List.cons_append, List.nil_append]
      rw [write, hts]
      exact (cut_writeItems hitems (hj (h.mark mark_openArray).newline)).before
  | @object fields hkeys _ ih =>
    intro pretty depth out ts h
    cases fields with
    | nil =>
      have hmark : Mark "\x7b\x7d" [.openObject, .closeObject] :=
        mark_openObject.append mark_closeObject
      exact (h.mark hmark).before
    | cons f fields =>
      obtain ⟨key, j⟩ := f
      obtain ⟨hkey, hkeys'⟩ := List.forall_mem_cons.mp hkeys
      obtain ⟨hj, hfields⟩ := List.forall_mem_cons.mp ih
      obtain ⟨key, rfl⟩ := Option.isSome_iff_exists.mp hkey
      have hts : ts ++ (Json.object ((some key, j) :: fields)).tokens =
          ts ++ [.openObject] ++ [.string (some key), .colon] ++ j.tokens ++
            fieldTokens fields := by
        simp only [tokens, List.append_assoc, List.cons_append, List.nil_append]
      rw [write, hts]
      exact (cut_writeFields hkeys' hfields
        (hj ((h.mark mark_openObject).newline.key key))).before

end

theorem tokens_start (j : Json) : ∃ t ts, j.tokens = t :: ts ∧ t ≠ .closeArray := by
  unfold tokens
  split <;> exact ⟨_, _, rfl, nofun⟩

theorem foldlM_firstItem (j : Json) (stack : List Frame) :
    j.tokens.foldlM State.next (.firstItem stack) =
      j.tokens.foldlM State.next (.value (.array [] :: stack)) := by
  obtain ⟨t, ts, hts, ht⟩ := tokens_start j
  have hnext : State.next (.firstItem stack) t = State.next (.value (.array [] :: stack)) t := by
    cases t <;> first | exact (ht rfl).elim | rfl
  rw [hts, List.foldlM_cons, List.foldlM_cons, hnext]

/-- That the tokens of a value are put together to the value, whatever is open around it. -/
def Parsed (j : Json) : Prop :=
  ∀ stack, j.tokens.foldlM State.next (.value stack) = some (.after j stack)

theorem foldlM_itemTokens {items : List Json} (hitems : ∀ j ∈ items, Parsed j) (j : Json)
    (done : List Json) (stack : List Frame) :
    (itemTokens items).foldlM State.next (.after j (.array done :: stack)) =
      some (.after (.array (done.reverse ++ j :: items)) stack) := by
  induction items generalizing j done with
  | nil =>
    rw [itemTokens, List.foldlM_cons, State.next, Option.bind_eq_bind, Option.bind_some,
      List.reverse_cons]
    rfl
  | cons j' items ih =>
    obtain ⟨hj, hitems⟩ := List.forall_mem_cons.mp hitems
    rw [itemTokens, List.foldlM_cons, State.next, Option.bind_eq_bind, Option.bind_some,
      List.foldlM_append, hj, Option.bind_eq_bind, Option.bind_some, ih hitems, List.reverse_cons,
      List.append_assoc, List.singleton_append]

theorem foldlM_fieldTokens {fields : List (Option String × Json)}
    (hfields : ∀ f ∈ fields, Parsed f.2) (key : Option String) (j : Json)
    (done : List (Option String × Json)) (stack : List Frame) :
    (fieldTokens fields).foldlM State.next (.after j (.field done key :: stack)) =
      some (.after (.object (done.reverse ++ (key, j) :: fields)) stack) := by
  induction fields generalizing key j done with
  | nil =>
    rw [fieldTokens, List.foldlM_cons, State.next, Option.bind_eq_bind, Option.bind_some,
      List.reverse_cons]
    rfl
  | cons f fields ih =>
    obtain ⟨key', j'⟩ := f
    obtain ⟨hj, hfields⟩ := List.forall_mem_cons.mp hfields
    simp only [fieldTokens, List.foldlM_cons, State.next, Option.bind_eq_bind, Option.bind_some,
      List.foldlM_append]
    rw [hj, Option.bind_some, ih hfields, List.reverse_cons, List.append_assoc,
      List.singleton_append]

theorem Proper.parsed {j : Json} (h : j.Proper) : Parsed j := by
  induction h with
  | null | bool | number | string => exact fun _ ↦ rfl
  | @array items _ ih =>
    intro stack
    cases items with
    | nil => rfl
    | cons j items =>
      obtain ⟨hj, hitems⟩ := List.forall_mem_cons.mp ih
      have hitems := foldlM_itemTokens hitems j [] stack
      rw [tokens, List.foldlM_cons, State.next, State.begin, Option.bind_eq_bind, Option.bind_some,
        List.foldlM_append, foldlM_firstItem, hj]
      exact hitems
  | @object fields _ _ ih =>
    intro stack
    cases fields with
    | nil => rfl
    | cons f fields =>
      obtain ⟨key, j⟩ := f
      obtain ⟨hj, hfields⟩ := List.forall_mem_cons.mp ih
      have hfields := foldlM_fieldTokens hfields key j [] stack
      simp only [tokens, List.foldlM_cons, State.next, State.begin, Option.bind_eq_bind,
        Option.bind_some, List.foldlM_append]
      rw [hj]
      exact hfields

/-- What is printed is parsed again. -/
theorem Proper.parse?_write {j : Json} (h : j.Proper) (pretty : Bool) :
    parse? (write pretty 0 "" j) = some j := by
  have hcut : Cut "" [] := fun _ ↦ rfl
  have htokens : tokensFrom [] ((write pretty 0 "" j).toList ++ []) =
      tokensFrom ([] ++ j.tokens).reverse [] := h.written hcut [] nofun
  rw [List.append_nil, List.nil_append, tokensFrom, List.reverse_reverse] at htokens
  rw [parse?, htokens, Option.bind_eq_bind, Option.bind_some, h.parsed]
  rfl

end PropertyFile.Json
