namespace PropertyFile.Text

/-- The characters of the Unicode property `White_Space`. -/
def isBlank (c : Char) : Bool :=
  let n := c.toNat
  (9 ≤ n && n ≤ 13) || n == 0x20 || n == 0x85 || n == 0xA0 || n == 0x1680 ||
    (0x2000 ≤ n && n ≤ 0x200A) || n == 0x2028 || n == 0x2029 || n == 0x202F || n == 0x205F ||
    n == 0x3000

def trim (s : List Char) : List Char :=
  ((s.dropWhile isBlank).reverse.dropWhile isBlank).reverse

theorem trim_eq_nil_iff {s : List Char} : trim s = [] ↔ ∀ c ∈ s, isBlank c = true := by
  have hdrop : ∀ l : List Char, l.dropWhile isBlank = [] ↔ ∀ c ∈ l, isBlank c = true := by
    intro l
    induction l with
    | nil => simp
    | cons c l ih => cases hc : isBlank c <;> simp [hc, ih]
  rw [trim, List.reverse_eq_nil_iff, hdrop]
  simp only [List.mem_reverse]
  induction s with
  | nil => simp
  | cons c s ih => cases hc : isBlank c <;> simp [hc, ih]

theorem isPrefixOf_toList_iff {mark s : String} :
    mark.toList.isPrefixOf s.toList = true ↔ ∃ rest, s = mark ++ rest := by
  rw [List.isPrefixOf_iff_prefix]
  constructor
  · rintro ⟨rest, h⟩
    refine ⟨.ofList rest, String.toList_inj.mp ?_⟩
    rw [String.toList_append, String.toList_ofList, h]
  · rintro ⟨rest, rfl⟩
    exact ⟨rest.toList, String.toList_append.symm⟩

def pieces (isSep : Char → Bool) (s : List Char) : List (List Char) :=
  s.foldr (fun c done ↦
    if isSep c then [] :: done
    else match done with
      | [] => [[c]]
      | piece :: rest => (c :: piece) :: rest) [[]]

def fields (isSep : Char → Bool) (s : List Char) : List (List Char) :=
  (pieces isSep s).filter (· ≠ [])

def trimmedLines (s : List Char) : List (List Char) :=
  ((pieces (· = '\n') s).map trim).filter (· ≠ [])

def splitOnce (sep : Char) (s : List Char) : Option (List Char × List Char) :=
  match s.dropWhile (· ≠ sep) with
  | [] => none
  | _ :: rest => some (s.takeWhile (· ≠ sep), rest)

end PropertyFile.Text
