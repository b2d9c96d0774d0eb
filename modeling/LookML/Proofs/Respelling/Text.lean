import LookML.Keys
import LookML.Proofs.Text.Trim
import LookML.Token.Basic
import LookML.Token.Span

/-!
# Respelling — texts with their blanks written otherwise

A respelling says what each blank of a text becomes; what is no blank stays.  It commutes with all
that texts go through when they are read: they are put together, their margins are cut off, and
keys are looked up.  Windows line ends are one: a line feed becomes a carriage return and a line
feed.
-/

namespace LookML

/-- A way to write the blanks of a text, and the raw text of a quoted literal with its meaning. -/
structure Respelling where
  char : Char → List Char
  raw : String → String → String
  char_of_not_blank : ∀ {c : Char}, Text.isBlank c = false → char c = [c]
  blank_of_mem : ∀ {c : Char}, Text.isBlank c = true → ∀ d ∈ char c, Text.isBlank d = true
  injective : Function.Injective fun text : List Char => text.flatMap char

namespace Respelling

variable (r : Respelling)

def chars (text : List Char) : List Char :=
  text.flatMap r.char

def text (s : String) : String :=
  String.ofList (r.chars s.toList)

@[simp] theorem chars_nil : r.chars [] = [] := rfl

theorem chars_cons (c : Char) (rest : List Char) : r.chars (c :: rest) = r.char c ++ r.chars rest :=
  List.flatMap_cons

theorem chars_append (a b : List Char) : r.chars (a ++ b) = r.chars a ++ r.chars b :=
  List.flatMap_append

@[simp] theorem toList_text (s : String) : (r.text s).toList = r.chars s.toList :=
  String.toList_ofList

@[simp] theorem text_ofList (s : List Char) :
    r.text (String.ofList s) = String.ofList (r.chars s) := by
  rw [text, String.toList_ofList]

@[simp] theorem text_empty : r.text "" = "" := rfl

theorem text_append (a b : String) : r.text (a ++ b) = r.text a ++ r.text b := by
  apply String.toList_inj.mp
  simp [chars_append]

theorem text_injective : Function.Injective r.text := by
  intro a b h
  apply String.toList_inj.mp
  exact r.injective (String.ofList_injective h)

/-! ## Texts without blanks -/

theorem chars_eq_self {text : List Char} (h : ∀ c ∈ text, Text.isBlank c = false) :
    r.chars text = text := by
  induction text with
  | nil => rfl
  | cons c rest ih =>
    rw [chars_cons, r.char_of_not_blank (h c (by simp)), ih fun d hd => h d (by simp [hd])]
    rfl

theorem text_eq_self {s : String} (h : ∀ c ∈ s.toList, Text.isBlank c = false) : r.text s = s := by
  rw [text, r.chars_eq_self h, String.ofList_toList]

/-- The condition as a check, which runs on the text and not over all characters. -/
theorem text_eq_self_of_all {s : String} (h : (s.toList.all fun c => !Text.isBlank c) = true) :
    r.text s = s :=
  r.text_eq_self (by simpa using h)

theorem text_symbol (m : Mark) : r.text m.symbol = m.symbol := by
  apply r.text_eq_self_of_all
  cases m <;> decide

/-- A plural key is one in every spelling, and nothing else becomes one. -/
theorem isPlural_text (key : String) : Keys.isPlural (r.text key) = Keys.isPlural key := by
  have hplain : ∀ p ∈ Keys.pluralKeys, (p.toList.all fun c => !Text.isBlank c) = true := by
    decide +kernel
  have hfixed : ∀ p ∈ Keys.pluralKeys, r.text p = p :=
    fun p hp => r.text_eq_self_of_all (hplain p hp)
  rw [Bool.eq_iff_iff]
  simp only [Keys.isPlural, List.contains_iff_mem]
  constructor
  · intro h
    have : r.text (r.text key) = r.text key := hfixed _ h
    rwa [r.text_injective this] at h
  · intro h
    rwa [hfixed key h]

/-! ## Margins -/

theorem takeWhile_chars (text : List Char) :
    (r.chars text).takeWhile Text.isBlank = r.chars (text.takeWhile Text.isBlank) := by
  induction text with
  | nil => rfl
  | cons c rest ih =>
    by_cases hc : Text.isBlank c = true
    · rw [List.takeWhile_cons_of_pos hc, chars_cons, chars_cons,
        List.takeWhile_append_of_pos (r.blank_of_mem hc), ih]
    · rw [Bool.not_eq_true] at hc
      rw [chars_cons, r.char_of_not_blank hc, List.takeWhile_cons_of_neg (by simp [hc])]
      simp [hc]

theorem dropWhile_flatMap {char : Char → List Char}
    (hn : ∀ {c}, Text.isBlank c = false → char c = [c])
    (hb : ∀ {c}, Text.isBlank c = true → ∀ d ∈ char c, Text.isBlank d = true) (text : List Char) :
    (text.flatMap char).dropWhile Text.isBlank = (text.dropWhile Text.isBlank).flatMap char := by
  induction text with
  | nil => rfl
  | cons c rest ih =>
    by_cases hc : Text.isBlank c = true
    · rw [List.dropWhile_cons_of_pos hc, List.flatMap_cons, List.dropWhile_append_of_pos (hb hc),
        ih]
    · rw [Bool.not_eq_true] at hc
      rw [List.dropWhile_cons_of_neg (by simp [hc]), List.flatMap_cons, hn hc]
      simp [hc]

theorem dropWhile_chars (text : List Char) :
    (r.chars text).dropWhile Text.isBlank = r.chars (text.dropWhile Text.isBlank) :=
  dropWhile_flatMap r.char_of_not_blank r.blank_of_mem text

theorem dropTrailing_chars (text : List Char) :
    Text.dropTrailing Text.isBlank (r.chars text) =
      r.chars (Text.dropTrailing Text.isBlank text) := by
  -- Read backwards, the text is respelled by what its blanks become backwards.
  have hn {c : Char} (hc : Text.isBlank c = false) : (r.char c).reverse = [c] := by
    rw [r.char_of_not_blank hc]
    rfl
  have hb {c : Char} (hc : Text.isBlank c = true) :
      ∀ d ∈ (r.char c).reverse, Text.isBlank d = true :=
    fun d hd => r.blank_of_mem hc d (List.mem_reverse.mp hd)
  have hreverse (text : List Char) :
      (r.chars text).reverse = text.reverse.flatMap fun c => (r.char c).reverse := by
    simp [chars, List.reverse_flatMap, Function.comp_def]
  rw [Text.dropTrailing, hreverse, dropWhile_flatMap hn hb, Text.dropTrailing, chars,
    List.reverse_flatMap]
  simp [Function.comp_def]

theorem takeTrailing_chars (text : List Char) :
    Text.takeTrailing Text.isBlank (r.chars text) =
      r.chars (Text.takeTrailing Text.isBlank text) := by
  have h := congrArg r.chars (Text.dropTrailing_append_takeTrailing Text.isBlank text)
  rw [chars_append, ← dropTrailing_chars] at h
  exact List.append_cancel_left
    ((Text.dropTrailing_append_takeTrailing Text.isBlank (r.chars text)).trans h.symm)

end Respelling

/-! ## Windows line ends -/

namespace Text

/-- A character as it stands in a text with Windows line ends. -/
def crlfChar (c : Char) : List Char :=
  if c = '\n' then ['\r', '\n'] else [c]

theorem crlfChar_of_ne {c : Char} (h : c ≠ '\n') : crlfChar c = [c] :=
  if_neg h

theorem head?_flatMap_crlfChar (text : List Char) : (text.flatMap crlfChar).head? ≠ some '\n' := by
  cases text with
  | nil => simp
  | cons c rest =>
    by_cases hc : c = '\n' <;> simp [crlfChar, hc]

/-- A line feed is known by the carriage return before it. -/
theorem flatMap_crlfChar_injective :
    Function.Injective fun text : List Char => text.flatMap crlfChar := by
  intro a
  induction a with
  | nil =>
    intro b h
    cases b with
    | nil => rfl
    | cons d b =>
      by_cases hd : d = '\n' <;> simp [crlfChar, hd] at h
  | cons c a ih =>
    intro b h
    cases b with
    | nil =>
      by_cases hc : c = '\n' <;> simp [crlfChar, hc] at h
    | cons d b =>
      simp only [List.flatMap_cons] at h
      by_cases hc : c = '\n' <;> by_cases hd : d = '\n'
      · rw [hc, hd] at h ⊢
        rw [ih (List.append_cancel_left h)]
      · rw [hc, crlfChar_of_ne hd] at h
        have := congrArg List.head? (List.cons.inj h).2
        exact absurd this.symm (head?_flatMap_crlfChar b)
      · rw [hd, crlfChar_of_ne hc] at h
        have := congrArg List.head? (List.cons.inj h).2
        exact absurd this (head?_flatMap_crlfChar a)
      · rw [crlfChar_of_ne hc, crlfChar_of_ne hd] at h
        obtain ⟨rfl, hrest⟩ := List.cons.inj h
        rw [ih hrest]

end Text

/-- Every line feed becomes a carriage return and a line feed. -/
def Respelling.crlf : Respelling where
  char := Text.crlfChar
  raw raw _ := String.ofList (raw.toList.flatMap Text.crlfChar)
  char_of_not_blank := by
    intro c h
    apply Text.crlfChar_of_ne
    rintro rfl
    simp [Text.isBlank, Text.blankRanges] at h
  blank_of_mem := by
    intro c h d hd
    by_cases hc : c = '\n'
    · simp only [Text.crlfChar, hc, if_pos, List.mem_cons, List.not_mem_nil, or_false] at hd
      rcases hd with rfl | rfl <;> decide
    · simp only [Text.crlfChar_of_ne hc, List.mem_singleton] at hd
      exact hd ▸ h
  injective := Text.flatMap_crlfChar_injective

theorem Respelling.crlf_raw (raw text : String) : crlf.raw raw text = crlf.text raw := rfl

end LookML
