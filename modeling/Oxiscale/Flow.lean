/-
Oxiscale/Flow.lean

JSON text, read and written.

The values have one thing more than JSON: a map key may be an integer, which
is written bare.  Without such keys the text is JSON in the usual indented
layout; with them it is still the flow notation of YAML, of which JSON is a
part.  Integers are natural numbers, and there are no fractions.

The reader is a recursive descent on a list of characters, bounded by a fuel
argument; the length of the text is always enough (`read_print`).  Bracketed
lists of items are written by `block` and read by `sepBy`, whose agreement
(`sepBy_block`) is proved once for sequences and maps.  `printFlat` is a map
without any white space, which is read as well (`read_printFlat`).

`printLines` is a map without its brackets, one entry a line, with a colon or
another character between a key and its value.  It is read back by
`readLines` with the same character, and neither as a value nor with another
character (`read_printLines`, `readLines_printLines_of_ne`).
-/
import Mathlib.Data.List.Basic
import Mathlib.Data.Nat.Notation
import Mathlib.Tactic.IntervalCases

namespace Flow

/-- A key of a map; JSON has text keys only. -/
inductive Key
  | int (n : ℕ)
  | str (s : String)
deriving DecidableEq

inductive Value
  | null
  | bool (b : Bool)
  | int (n : ℕ)
  | str (s : String)
  | seq (items : List Value)
  | map (entries : List (Key × Value))

/-- Induction over values, with the hypothesis for every item and entry. -/
theorem Value.inductionOn {P : Value → Prop} (v : Value) (null : P .null)
    (bool : ∀ b, P (.bool b)) (int : ∀ n, P (.int n)) (str : ∀ s, P (.str s))
    (seq : ∀ items, (∀ v ∈ items, P v) → P (.seq items))
    (map : ∀ entries, (∀ e ∈ entries, P e.2) → P (.map entries)) : P v :=
  match v with
  | .null => null
  | .bool b => bool b
  | .int n => int n
  | .str s => str s
  | .seq items => seq items fun v _ => inductionOn v null bool int str seq map
  | .map entries => map entries fun e _ => inductionOn e.2 null bool int str seq map
termination_by sizeOf v
decreasing_by
  · rename_i hv
    have := List.sizeOf_lt_of_mem hv
    simp only [Value.seq.sizeOf_spec]
    omega
  · rename_i he
    have hlt := List.sizeOf_lt_of_mem he
    have hpair : sizeOf e = 1 + sizeOf e.1 + sizeOf e.2 := by
      cases e
      rfl
    simp only [Value.map.sizeOf_spec]
    omega

/-! ### Writing -/

def hexDigit (n : ℕ) : Char := "0123456789abcdef".toList.getD n '0'

/-- The characters with an escape of their own, and the letter it has. -/
def shortEscapes : List (Char × Char) :=
  [('\"', '\"'), ('\\', '\\'), ('\n', 'n'), ('\r', 'r'), ('\t', 't'), ('\x08', 'b'), ('\x0c', 'f')]

def escapeChar (c : Char) : List Char :=
  match shortEscapes.find? fun p => p.1 = c with
  | some (_, letter) => ['\\', letter]
  | none =>
    if c.toNat < 32 then
      ['\\', 'u', '0', '0', hexDigit (c.toNat / 16), hexDigit (c.toNat % 16)]
    else [c]

def printString (s : String) : List Char :=
  '\"' :: (s.toList.flatMap escapeChar ++ ['\"'])

def printKey : Key → List Char
  | .int n => Nat.toDigits 10 n
  | .str s => printString s

/-- A new line, indented to the level `n`. -/
def newline (n : ℕ) : List Char := '\n' :: List.replicate (2 * n) ' '

/-- Items between brackets, one a line. -/
def block (left right : Char) (n : ℕ) : List (List Char) → List Char
  | [] => [left, right]
  | x :: xs => left :: (newline (n + 1) ++ x ++
      xs.flatMap (fun y => ',' :: (newline (n + 1) ++ y)) ++ newline n ++ [right])

mutual

/-- With its items on lines of their own, one level deeper. -/
def print (n : ℕ) : Value → List Char
  | .null => "null".toList
  | .bool true => "true".toList
  | .bool false => "false".toList
  | .int k => Nat.toDigits 10 k
  | .str s => printString s
  | .seq items => block '[' ']' n (printItems (n + 1) items)
  | .map entries => block '\x7b' '\x7d' n (printEntries (n + 1) entries)

def printItems (n : ℕ) : List Value → List (List Char)
  | [] => []
  | v :: vs => print n v :: printItems n vs

def printEntries (n : ℕ) : List (Key × Value) → List (List Char)
  | [] => []
  | (k, v) :: es => (printKey k ++ ':' :: ' ' :: print n v) :: printEntries n es

end

/-! ### Reading -/

/-- A reader of what stands at the start of a text, with the rest of it. -/
abbrev Reader (α : Type) := List Char → Option (α × List Char)

def isSpace (c : Char) : Bool := c = ' ' || c = '\n' || c = '\r' || c = '\t'

def skip (cs : List Char) : List Char := cs.dropWhile isSpace

def expect : List Char → List Char → Option (List Char)
  | [], cs => some cs
  | _ :: _, [] => none
  | w :: ws, c :: cs => if w = c then expect ws cs else none

def hexValue (c : Char) : Option ℕ :=
  "0123456789abcdef".toList.findIdx? (· = c)

/-- The character after a backslash. -/
def unescape : Reader Char
  | [] => none
  | letter :: cs =>
    match shortEscapes.find? fun p => p.2 = letter with
    | some (c, _) => some (c, cs)
    | none =>
      if letter = '/' then some ('/', cs)
      else if letter = 'u' then
        match cs with
        | '0' :: '0' :: h :: l :: cs =>
          (hexValue h).bind fun a => (hexValue l).map fun b => (Char.ofNat (16 * a + b), cs)
        | _ => none
      else none

/-- The characters up to the closing quote. -/
def readChars : ℕ → Reader (List Char)
  | 0, _ => none
  | _ + 1, [] => none
  | fuel + 1, c :: cs =>
    if c = '\"' then some ([], cs)
    else if c = '\\' then
      (unescape cs).bind fun (x, r) => (readChars fuel r).map fun (xs, r) => (x :: xs, r)
    else if c.toNat < 32 then none
    else (readChars fuel cs).map fun (xs, r) => (c :: xs, r)

def readNat : Reader ℕ := fun cs =>
  match cs.takeWhile Char.isDigit with
  | [] => none
  | d :: ds => some (Nat.ofDigitChars 10 (d :: ds) 0, cs.dropWhile Char.isDigit)

def readKey (cs : List Char) : Option (Key × List Char) :=
  match skip cs with
  | '\"' :: rest => (readChars rest.length rest).map fun (s, r) => (.str (String.ofList s), r)
  | rest => (readNat rest).map fun (n, r) => (.int n, r)

section Lists

variable {α : Type} (item : Reader α) (right : Char)

/-- What follows an item: a comma and more items, or the closing bracket. -/
def readItems : ℕ → Reader (List α)
  | 0, _ => none
  | fuel + 1, cs =>
    match skip cs with
    | [] => none
    | c :: rest =>
      if c = right then some ([], rest)
      else if c = ',' then
        (item rest).bind fun (x, r) => (readItems fuel r).map fun (xs, r) => (x :: xs, r)
      else none

/-- Items between an opening bracket, already read, and the closing one. -/
def sepBy (fuel : ℕ) : Reader (List α) := fun cs =>
  match item cs with
  | some (x, r) => (readItems item right fuel r).map fun (xs, r) => (x :: xs, r)
  | none => (expect [right] (skip cs)).map fun r => ([], r)

end Lists

/-- A key, the character after it, and a value. -/
def entry (sep : Char) (value : Reader Value) : Reader (Key × Value) := fun cs =>
  (readKey cs).bind fun (k, r) =>
    (expect [sep] (skip r)).bind fun r => (value r).map fun (v, r) => ((k, v), r)

/-- One value, within the fuel; the fuel is the length of the text. -/
def parse : ℕ → Reader Value
  | 0, _ => none
  | fuel + 1, cs =>
    match skip cs with
    | [] => none
    | c :: rest =>
      if c = '[' then (sepBy (parse fuel) ']' fuel rest).map fun (vs, r) => (.seq vs, r)
      else if c = '\x7b' then
        (sepBy (entry ':' (parse fuel)) '\x7d' fuel rest).map fun (es, r) => (.map es, r)
      else if c = '\"' then
        (readChars rest.length rest).map fun (s, r) => (.str (String.ofList s), r)
      else if c = 'n' then (expect "ull".toList rest).map fun r => (.null, r)
      else if c = 't' then (expect "rue".toList rest).map fun r => (.bool true, r)
      else if c = 'f' then (expect "alse".toList rest).map fun r => (.bool false, r)
      else (readNat (c :: rest)).map fun (n, r) => (.int n, r)

/-- A whole text. -/
def read (cs : List Char) : Option Value :=
  match parse cs.length cs with
  | some (v, rest) => if skip rest = [] then some v else none
  | none => none

/-! ### What is written is read -/

variable {n fuel : ℕ} {c : Char} {cs rest : List Char}

theorem isDigit_or (c : Char) (h : c.isDigit) : isSpace c = false ∧ c ≠ '[' ∧ c ≠ ']' ∧
    c ≠ '\x7b' ∧ c ≠ '\x7d' ∧ c ≠ '\"' ∧ c ≠ 'n' ∧ c ≠ 't' ∧ c ≠ 'f' := by
  simp only [isSpace, Bool.or_eq_false_iff, decide_eq_false_iff_not]
  refine ⟨⟨⟨⟨?_, ?_⟩, ?_⟩, ?_⟩, ?_, ?_, ?_, ?_, ?_, ?_, ?_, ?_⟩
  all_goals
    rintro rfl
    exact absurd h (by decide)

/-- Nothing is skipped before a token. -/
theorem skip_cons (h : isSpace c = false) : skip (c :: cs) = c :: cs := by
  simp [skip, h]

theorem skip_append {ws : List Char} (h : ∀ c ∈ ws, isSpace c = true) :
    skip (ws ++ cs) = skip cs := by
  simp only [skip, List.dropWhile_append_of_pos h]

theorem isSpace_newline : ∀ c ∈ newline n, isSpace c = true := by
  intro c hc
  rcases List.mem_cons.mp hc with rfl | hc
  · rfl
  · rw [(List.mem_replicate.mp hc).2]
    rfl

/-- A word is expected where it stands. -/
theorem expect_append (w : List Char) : expect w (w ++ cs) = some cs := by
  induction w with
  | nil => rfl
  | cons x xs ih => simp [expect, ih]

/-- The text does not go on with a digit, which would be read as part of a
number that ends there. -/
def NoDigit (cs : List Char) : Prop := ∀ c ∈ cs.head?, c.isDigit = false

/-- Digits begin with a digit. -/
theorem exists_toDigits_eq (m : ℕ) : ∃ d ds, Nat.toDigits 10 m = d :: ds ∧ d.isDigit = true := by
  rcases hd : Nat.toDigits 10 m with - | ⟨d, ds⟩
  · exact absurd hd Nat.toDigits_ne_nil
  · exact ⟨d, ds, rfl, Nat.isDigit_of_mem_toDigits (b := 10) (n := m) (by decide) (by decide)
      (by simp [hd])⟩

/-- A number ends at the first character that is not a digit. -/
theorem readNat_toDigits (h : NoDigit rest) :
    readNat (Nat.toDigits 10 n ++ rest) = some (n, rest) := by
  have hall : ∀ c ∈ Nat.toDigits 10 n, c.isDigit = true :=
    fun c hc => Nat.isDigit_of_mem_toDigits (by decide) (by decide) hc
  have htake : rest.takeWhile Char.isDigit = [] ∧ rest.dropWhile Char.isDigit = rest := by
    rcases rest with - | ⟨c, rest⟩
    · simp
    · simp [h c rfl]
  rw [readNat, List.takeWhile_append_of_pos hall, List.dropWhile_append_of_pos hall, htake.1,
    htake.2, List.append_nil]
  obtain ⟨d, ds, hd, -⟩ := exists_toDigits_eq n
  rw [hd]
  show some (Nat.ofDigitChars 10 (d :: ds) 0, rest) = some (n, rest)
  rw [← hd, Nat.ofDigitChars_ten_toDigits]

/-- Digits tell the number. -/
theorem toDigits_inj {m n : ℕ} (h : Nat.toDigits 10 m = Nat.toDigits 10 n) : m = n := by
  have hread : ∀ k, readNat (Nat.toDigits 10 k ++ []) = some (k, []) :=
    fun k => readNat_toDigits fun c hc => by cases hc
  have hm := hread m
  rw [h, hread n] at hm
  exact (Prod.mk.inj (Option.some.inj hm)).1.symm

/-! #### Strings -/

/-- A control character is read from its code. -/
theorem unescape_hex (h : c.toNat < 32) : unescape ('u' :: '0' :: '0' ::
    hexDigit (c.toNat / 16) :: hexDigit (c.toNat % 16) :: cs) = some (c, cs) := by
  obtain ⟨k, hk⟩ : ∃ k, k = c.toNat := ⟨_, rfl⟩
  have hc : c = Char.ofNat k := by rw [hk, Char.ofNat_toNat]
  rw [← hk] at h ⊢
  rw [hc]
  clear hc hk
  interval_cases k <;> rfl

/-- An escaped character is a backslash and what `unescape` undoes, or the
character itself. -/
theorem escapeChar_cases (c : Char) :
    (∃ e, escapeChar c = '\\' :: e ∧ ∀ cs, unescape (e ++ cs) = some (c, cs)) ∨
    (escapeChar c = [c] ∧ c ≠ '\"' ∧ c ≠ '\\' ∧ ¬ c.toNat < 32) := by
  rcases hc : shortEscapes.find? (fun p => p.1 = c) with - | ⟨c', letter⟩
  · have hother : ∀ p ∈ shortEscapes, p.1 ≠ c := by simpa using hc
    by_cases hctl : c.toNat < 32
    · refine Or.inl ⟨_, by rw [escapeChar, hc]; exact if_pos hctl, fun cs => unescape_hex hctl⟩
    · refine Or.inr ⟨by rw [escapeChar, hc]; exact if_neg hctl, ?_, ?_, hctl⟩
      · exact (hother ('\"', '\"') (by decide)).symm
      · exact (hother ('\\', '\\') (by decide)).symm
  · -- no two characters share a letter
    have hback : ∀ p ∈ shortEscapes, shortEscapes.find? (fun q => q.2 = p.2) = some p := by decide
    obtain rfl : c' = c := by simpa using List.find?_some hc
    refine Or.inl ⟨[letter], by rw [escapeChar, hc], fun cs => ?_⟩
    have hletter := hback _ (List.mem_of_find?_eq_some hc)
    simp only [List.singleton_append, unescape, hletter]

/-- A text ends at its own quote, whatever characters are in it. -/
theorem readChars_escape (s : List Char) (h : s.length < fuel) :
    readChars fuel (s.flatMap escapeChar ++ '\"' :: rest) = some (s, rest) := by
  induction s generalizing fuel with
  | nil =>
      obtain ⟨fuel, rfl⟩ := Nat.exists_eq_succ_of_ne_zero (Nat.ne_of_gt h)
      simp [readChars]
  | cons c s ih =>
      obtain ⟨fuel, rfl⟩ := Nat.exists_eq_succ_of_ne_zero (Nat.ne_of_gt (Nat.zero_lt_of_lt h))
      have ih := ih (show s.length < fuel by simpa using h)
      rw [List.flatMap_cons, List.append_assoc]
      rcases escapeChar_cases c with ⟨e, he, hun⟩ | ⟨he, hq, hb, hctl⟩
      · rw [he, List.cons_append, readChars, if_neg (by decide), if_pos rfl, hun]
        simp [ih]
      · rw [he, List.cons_append, List.nil_append, readChars, if_neg hq, if_neg hb, if_neg hctl, ih]
        rfl

theorem length_le_flatMap_escapeChar (s : List Char) :
    s.length ≤ (s.flatMap escapeChar).length := by
  induction s with
  | nil => exact le_refl _
  | cons c s ih =>
      have hpos : 1 ≤ (escapeChar c).length := by
        rcases escapeChar_cases c with ⟨e, he, -⟩ | ⟨he, -⟩
        · simp [he]
        · simp [he]
      rw [List.flatMap_cons, List.length_append, List.length_cons]
      omega

/-- After the opening quote, the string is read back. -/
theorem readChars_printString (s : String) :
    readChars (s.toList.flatMap escapeChar ++ '\"' :: rest).length
      (s.toList.flatMap escapeChar ++ '\"' :: rest) = some (s.toList, rest) := by
  refine readChars_escape s.toList ?_
  have hle := length_le_flatMap_escapeChar s.toList
  simp only [List.length_append, List.length_cons]
  omega

theorem readKey_printKey {ws : List Char} {k : Key} (hws : ∀ c ∈ ws, isSpace c = true)
    (h : NoDigit rest) : readKey (ws ++ (printKey k ++ rest)) = some (k, rest) := by
  rw [readKey, skip_append hws]
  cases k with
  | int m =>
      obtain ⟨d, ds, hd, hdigit⟩ := exists_toDigits_eq m
      obtain ⟨hsp, -, -, -, -, hq, -⟩ := isDigit_or d hdigit
      have hread : readNat (Nat.toDigits 10 m ++ rest) = some (m, rest) := readNat_toDigits h
      rw [hd, List.cons_append] at hread
      rw [printKey, hd, List.cons_append, skip_cons hsp]
      -- a digit is not the quote that a string key begins with
      split
      · rename_i heq
        exact absurd (List.cons.inj heq).1 hq
      · rw [hread]
        rfl
  | str s =>
      rw [printKey, printString, List.cons_append, List.append_assoc, List.singleton_append,
        skip_cons rfl]
      simp only [readChars_printString, Option.map_some, String.ofList_toList]

/-! #### Lists of items -/

section Lists

variable {α : Type} {item : Reader α} {left right : Char} {write : α → List Char} {l : List α}

theorem noDigit_cons (h : c.isDigit = false) : NoDigit (c :: cs) := by
  simpa [NoDigit] using h

/-- The text after an item: the next one or the end of the list. -/
theorem noDigit_rest (xs : List (List Char)) :
    NoDigit (xs.flatMap (fun y => ',' :: (newline (n + 1) ++ y)) ++ (newline n ++ rest)) := by
  rcases xs with - | ⟨x, xs⟩
  · exact noDigit_cons rfl
  · exact noDigit_cons rfl

/-- Items are read one by one, up to the bracket. -/
theorem readItems_block (hright : isSpace right = false) (hcomma : right ≠ ',')
    (hitem : ∀ x ∈ l, ∀ rest, NoDigit rest →
      item (newline (n + 1) ++ (write x ++ rest)) = some (x, rest))
    (hfuel : l.length < fuel) :
    readItems item right fuel ((l.map write).flatMap (fun y => ',' :: (newline (n + 1) ++ y)) ++
      (newline n ++ right :: rest)) = some (l, rest) := by
  induction l generalizing fuel with
  | nil =>
      obtain ⟨fuel, rfl⟩ := Nat.exists_eq_succ_of_ne_zero (Nat.ne_of_gt hfuel)
      rw [List.map_nil, List.flatMap_nil, List.nil_append, readItems, skip_append isSpace_newline,
        skip_cons hright]
      exact if_pos rfl
  | cons x xs ih =>
      obtain ⟨fuel, rfl⟩ := Nat.exists_eq_succ_of_ne_zero (Nat.ne_of_gt (Nat.zero_lt_of_lt hfuel))
      have ih := ih (fun y hy => hitem y (List.mem_cons_of_mem x hy))
        (show xs.length < fuel by simpa using hfuel)
      rw [List.map_cons, List.flatMap_cons, List.cons_append, List.cons_append, readItems,
        skip_cons rfl]
      simp only [if_neg hcomma.symm, if_true, List.append_assoc,
        hitem x List.mem_cons_self _ (noDigit_rest _), Option.bind_some, ih, Option.map_some]

/-- **Bracketed lists.**  A list written as a block is read back when its items
are, and the closing bracket can not be taken for an item. -/
theorem sepBy_block (hright : isSpace right = false) (hcomma : right ≠ ',')
    (hitem : ∀ x ∈ l, ∀ rest, NoDigit rest →
      item (newline (n + 1) ++ (write x ++ rest)) = some (x, rest))
    (hempty : ∀ rest, item (right :: rest) = none) (hfuel : l.length ≤ fuel) :
    sepBy item right fuel ((block left right n (l.map write)).tail ++ rest) = some (l, rest) := by
  rcases l with - | ⟨x, xs⟩
  · show sepBy item right fuel (right :: rest) = _
    rw [sepBy, hempty, skip_cons hright]
    simp [expect]
  · have hread : readItems item right fuel ((xs.map write).flatMap
        (fun y => ',' :: (newline (n + 1) ++ y)) ++ (newline n ++ right :: rest)) =
        some (xs, rest) :=
      readItems_block hright hcomma (fun y hy => hitem y (List.mem_cons_of_mem x hy)) hfuel
    have htext : (block left right n ((x :: xs).map write)).tail ++ rest =
        newline (n + 1) ++ (write x ++ ((xs.map write).flatMap
          (fun y => ',' :: (newline (n + 1) ++ y)) ++ (newline n ++ right :: rest))) := by
      simp [block]
    rw [htext, sepBy, hitem x List.mem_cons_self _ (noDigit_rest _)]
    simp only [hread, Option.map_some]

theorem block_eq_cons (xs : List (List Char)) :
    block left right n xs = left :: (block left right n xs).tail := by
  rcases xs with - | ⟨x, xs⟩ <;> rfl

/-- A block is longer than each of its items, and than their number. -/
theorem length_block (left right : Char) (n : ℕ) (xs : List (List Char)) :
    xs.length < (block left right n xs).length ∧
      ∀ x ∈ xs, x.length < (block left right n xs).length := by
  rcases xs with - | ⟨x, xs⟩
  · simp [block]
  · have hrest : xs.length ≤ (xs.flatMap fun y => ',' :: (newline (n + 1) ++ y)).length ∧
        ∀ y ∈ xs, y.length ≤ (xs.flatMap fun y => ',' :: (newline (n + 1) ++ y)).length := by
      clear x
      induction xs with
      | nil => simp
      | cons y ys ih =>
          obtain ⟨hnum, hlen⟩ := ih
          simp only [List.flatMap_cons, List.length_append, List.length_cons, List.mem_cons]
          refine ⟨by omega, ?_⟩
          rintro z (rfl | hz)
          · omega
          · have := hlen z hz
            omega
    obtain ⟨hnum, hlen⟩ := hrest
    simp only [block, List.length_cons, List.length_append, List.length_nil, List.mem_cons]
    refine ⟨by omega, ?_⟩
    rintro z (rfl | hz)
    · omega
    · have := hlen z hz
      omega

end Lists

/-! #### Values -/

theorem printItems_eq (l : List Value) : printItems n l = l.map (print n) := by
  induction l with
  | nil => rfl
  | cons v vs ih => rw [printItems, ih, List.map_cons]

def printEntry (n : ℕ) (e : Key × Value) : List Char := printKey e.1 ++ ':' :: ' ' :: print n e.2

theorem printEntries_eq (l : List (Key × Value)) : printEntries n l = l.map (printEntry n) := by
  induction l with
  | nil => rfl
  | cons e es ih =>
      obtain ⟨k, v⟩ := e
      rw [printEntries, ih, List.map_cons]
      rfl

theorem readNat_of_not_isDigit (h : c.isDigit = false) : readNat (c :: cs) = none := by
  simp [readNat, h]

/-- No value begins with a closing bracket. -/
theorem parse_seq_end : parse fuel (']' :: rest) = none := by
  rcases fuel with - | fuel
  · rfl
  · rw [parse, skip_cons rfl]
    simp [readNat_of_not_isDigit]

theorem entry_map_end {sep : Char} {value : Reader Value} :
    entry sep value ('\x7d' :: rest) = none := by
  have hkey : readKey ('\x7d' :: rest) = none := by
    rw [readKey, skip_cons rfl]
    simp [readNat_of_not_isDigit]
  rw [entry, hkey]
  rfl

theorem print_ne_nil (v : Value) : print n v ≠ [] := by
  cases v with
  | null => simp [print]
  | bool b => cases b <;> simp [print]
  | int k => exact Nat.toDigits_ne_nil
  | str s => simp [print, printString]
  | seq l =>
      rw [print, block_eq_cons]
      exact List.cons_ne_nil _ _
  | map l =>
      rw [print, block_eq_cons]
      exact List.cons_ne_nil _ _

/-- There is fuel for what is written. -/
theorem exists_fuel (v : Value) (h : (print n v).length ≤ fuel) : ∃ more, fuel = more + 1 := by
  refine Nat.exists_eq_succ_of_ne_zero fun hzero => print_ne_nil (n := n) v ?_
  exact List.length_eq_zero_iff.mp (Nat.le_zero.mp (hzero ▸ h))

section Parse

variable {ws : List Char}

theorem parse_int (hws : ∀ c ∈ ws, isSpace c = true) (k : ℕ) (hrest : NoDigit rest) :
    parse (fuel + 1) (ws ++ (print n (.int k) ++ rest)) = some (.int k, rest) := by
  obtain ⟨d, ds, hd, hdigit⟩ := exists_toDigits_eq k
  obtain ⟨hsp, h1, -, h2, -, h3, h4, h5, h6⟩ := isDigit_or d hdigit
  have hread : readNat (Nat.toDigits 10 k ++ rest) = some (k, rest) := readNat_toDigits hrest
  rw [hd, List.cons_append] at hread
  rw [parse, skip_append hws, print, hd, List.cons_append, skip_cons hsp]
  simp only [if_neg h1, if_neg h2, if_neg h3, if_neg h4, if_neg h5, if_neg h6, hread,
    Option.map_some]

theorem parse_str (hws : ∀ c ∈ ws, isSpace c = true) (s : String) :
    parse (fuel + 1) (ws ++ (print n (.str s) ++ rest)) = some (.str s, rest) := by
  rw [parse, skip_append hws, print, printString, List.cons_append, List.append_assoc,
    List.singleton_append, skip_cons rfl]
  simp only [readChars_printString, Option.map_some, String.ofList_toList]
  rfl

/-- A sequence is read when its items are. -/
theorem parse_seq (hws : ∀ c ∈ ws, isSpace c = true) {l : List Value} (hnum : l.length ≤ fuel)
    (hitem : ∀ v ∈ l, ∀ rest, NoDigit rest →
      parse fuel (newline (n + 1) ++ (print (n + 1) v ++ rest)) = some (v, rest)) :
    parse (fuel + 1) (ws ++ (print n (.seq l) ++ rest)) = some (.seq l, rest) := by
  have hread : sepBy (parse fuel) ']' fuel
      ((block '[' ']' n (l.map (print (n + 1)))).tail ++ rest) = some (l, rest) :=
    sepBy_block rfl (by decide) hitem (fun _ => parse_seq_end) hnum
  rw [print, printItems_eq, parse, skip_append hws, block_eq_cons, List.cons_append, skip_cons rfl]
  simp only [if_true, hread, Option.map_some]

/-- A map is read when its entries are. -/
theorem parse_map (hws : ∀ c ∈ ws, isSpace c = true) {l : List (Key × Value)}
    (hnum : l.length ≤ fuel)
    (hentry : ∀ e ∈ l, ∀ rest, NoDigit rest →
      entry ':' (parse fuel) (newline (n + 1) ++ (printEntry (n + 1) e ++ rest)) = some (e, rest)) :
    parse (fuel + 1) (ws ++ (print n (.map l) ++ rest)) = some (.map l, rest) := by
  have hread : sepBy (entry ':' (parse fuel)) '\x7d' fuel
      ((block '\x7b' '\x7d' n (l.map (printEntry (n + 1)))).tail ++ rest) = some (l, rest) :=
    sepBy_block rfl (by decide) hentry (fun _ => entry_map_end) hnum
  rw [print, printEntries_eq, parse, skip_append hws, block_eq_cons, List.cons_append, skip_cons rfl]
  simp only [if_true, hread, Option.map_some]
  rfl

/-- A key is followed by the character that the reader expects there, or the
entry is refused. -/
theorem entry_printKey_append {sep c : Char} {ws' : List Char} {value : Reader Value}
    (hws : ∀ c ∈ ws, isSpace c = true) (hws' : ∀ c ∈ ws', isSpace c = true)
    (hspace : isSpace c = false) (hdigit : c.isDigit = false) (k : Key) :
    entry sep value (ws ++ (printKey k ++ (ws' ++ c :: cs))) =
      if sep = c then (value cs).map fun (v, r) => ((k, v), r) else none := by
  have hend : NoDigit (ws' ++ c :: cs) := by
    rcases ws' with - | ⟨w, ws'⟩
    · exact noDigit_cons hdigit
    · have hw := hws' w List.mem_cons_self
      have hnot : w.isDigit = false := by
        by_contra hd
        rw [(isDigit_or w (by simpa using hd)).1] at hw
        cases hw
      exact noDigit_cons hnot
  have hkey : readKey (ws ++ (printKey k ++ (ws' ++ c :: cs))) = some (k, ws' ++ c :: cs) :=
    readKey_printKey hws hend
  rw [entry, hkey]
  simp only [Option.bind_some, skip_append hws', skip_cons hspace, expect]
  by_cases hsep : sep = c
  · simp [hsep]
  · simp [hsep]

/-- A key, a colon and what the reader takes for a value. -/
theorem entry_printKey {value : Reader Value} {v : Value} (hws : ∀ c ∈ ws, isSpace c = true)
    (k : Key) (hvalue : value cs = some (v, rest)) :
    entry ':' value (ws ++ (printKey k ++ ':' :: cs)) = some ((k, v), rest) := by
  have hentry : entry ':' value (ws ++ (printKey k ++ ([] ++ ':' :: cs))) =
      if ':' = ':' then (value cs).map fun (v, r) => ((k, v), r) else none :=
    entry_printKey_append hws (List.forall_mem_nil _) rfl rfl k
  rw [List.nil_append] at hentry
  rw [hentry, if_pos rfl, hvalue]
  rfl

end Parse

/-- **What is written is read**, whatever white space stands before it and
whatever follows, digits apart. -/
theorem parse_print (v : Value) : ∀ {n fuel : ℕ} {ws rest : List Char},
    (∀ c ∈ ws, isSpace c = true) → (print n v).length ≤ fuel → NoDigit rest →
    parse fuel (ws ++ (print n v ++ rest)) = some (v, rest) := by
  -- the fuel is the length of the text, and every part of a value is shorter
  induction v using Value.inductionOn with
  | null =>
      intro n fuel ws rest hws hfuel _
      obtain ⟨fuel, rfl⟩ := exists_fuel _ hfuel
      rw [parse, skip_append hws]
      rfl
  | bool b =>
      intro n fuel ws rest hws hfuel _
      obtain ⟨fuel, rfl⟩ := exists_fuel _ hfuel
      rw [parse, skip_append hws]
      cases b <;> rfl
  | int k =>
      intro n fuel ws rest hws hfuel hrest
      obtain ⟨fuel, rfl⟩ := exists_fuel _ hfuel
      exact parse_int hws k hrest
  | str s =>
      intro n fuel ws rest hws hfuel _
      obtain ⟨fuel, rfl⟩ := exists_fuel _ hfuel
      exact parse_str hws s
  | seq l ih =>
      intro n fuel ws rest hws hfuel _
      obtain ⟨fuel, rfl⟩ := exists_fuel _ hfuel
      -- an item is shorter than the block around it, so the fuel left is enough
      rw [print, printItems_eq] at hfuel
      obtain ⟨hnum, hlen⟩ := length_block '[' ']' n (l.map (print (n + 1)))
      rw [List.length_map] at hnum
      refine parse_seq hws (by omega) fun v hv rest hrest => ?_
      have hlt := hlen _ (List.mem_map_of_mem hv)
      exact ih v hv isSpace_newline (by omega) hrest
  | map l ih =>
      intro n fuel ws rest hws hfuel _
      obtain ⟨fuel, rfl⟩ := exists_fuel _ hfuel
      rw [print, printEntries_eq] at hfuel
      obtain ⟨hnum, hlen⟩ := length_block '\x7b' '\x7d' n (l.map (printEntry (n + 1)))
      rw [List.length_map] at hnum
      refine parse_map hws (by omega) fun e he rest hrest => ?_
      have hlt := hlen _ (List.mem_map_of_mem he)
      simp only [printEntry, List.length_append, List.length_cons] at hlt
      have hval : parse fuel ([' '] ++ (print (n + 1) e.2 ++ rest)) = some (e.2, rest) :=
        ih e he (by simp [isSpace]) (by omega) hrest
      rw [printEntry, List.append_assoc, List.cons_append, List.cons_append]
      exact entry_printKey isSpace_newline e.1 hval

/-- **Round trip.**  A text is read as the value it was written from. -/
theorem read_print (v : Value) : read (print 0 v) = some v := by
  have h : parse (print 0 v).length ([] ++ (print 0 v ++ [])) = some (v, []) :=
    parse_print v (by simp) (le_refl _) (by simp [NoDigit])
  rw [List.nil_append, List.append_nil] at h
  rw [read, h]
  rfl

/-- A map of one entry, without the white space. -/
theorem read_single (k : Key) (v : Value) :
    read ('\x7b' :: (printKey k ++ ':' :: (print 0 v ++ ['\x7d']))) = some (.map [(k, v)]) := by
  obtain ⟨fuel, hfuel⟩ : ∃ fuel, fuel = (printKey k ++ ':' :: (print 0 v ++ ['\x7d'])).length :=
    ⟨_, rfl⟩
  have hlen : (print 0 v).length ≤ fuel ∧ 0 < fuel := by
    simp only [List.length_append, List.length_cons] at hfuel
    omega
  have hval : parse fuel ([] ++ (print 0 v ++ ['\x7d'])) = some (v, ['\x7d']) :=
    parse_print v (List.forall_mem_nil _) hlen.1 (noDigit_cons rfl)
  have hentry : entry ':' (parse fuel) ([] ++ (printKey k ++ ':' :: (print 0 v ++ ['\x7d']))) =
      some ((k, v), ['\x7d']) := entry_printKey (List.forall_mem_nil _) k hval
  rw [List.nil_append] at hentry
  have hitems : readItems (entry ':' (parse fuel)) '\x7d' fuel ['\x7d'] = some ([], []) := by
    obtain ⟨fuel', rfl⟩ := Nat.exists_eq_succ_of_ne_zero (Nat.ne_of_gt hlen.2)
    rw [readItems, skip_cons rfl]
    rfl
  rw [read, List.length_cons, ← hfuel, parse, skip_cons rfl]
  simp only [sepBy, hentry, hitems, Option.map_some]
  rfl

/-! #### Maps without white space -/

def flatEntry (e : Key × Value) : List Char := printKey e.1 ++ ':' :: print 0 e.2

/-- A map on one line, without white space between its entries. -/
def printFlat : List (Key × Value) → List Char
  | [] => ['\x7b', '\x7d']
  | e :: es => '\x7b' :: (flatEntry e ++ es.flatMap (fun e => ',' :: flatEntry e) ++ ['\x7d'])

theorem entry_flat {e : Key × Value} (hfuel : (print 0 e.2).length ≤ fuel) (hrest : NoDigit rest) :
    entry ':' (parse fuel) (flatEntry e ++ rest) = some (e, rest) := by
  have hval : parse fuel ([] ++ (print 0 e.2 ++ rest)) = some (e.2, rest) :=
    parse_print e.2 (List.forall_mem_nil _) hfuel hrest
  have hentry : entry ':' (parse fuel) ([] ++ (printKey e.1 ++ ':' :: (print 0 e.2 ++ rest))) =
      some (e, rest) := entry_printKey (List.forall_mem_nil _) e.1 hval
  rwa [List.nil_append, ← List.cons_append, ← List.append_assoc] at hentry

theorem readItems_flat {es : List (Key × Value)} {fuel' : ℕ} (hnum : es.length < fuel')
    (hfuel : ∀ e ∈ es, (print 0 e.2).length ≤ fuel) :
    readItems (entry ':' (parse fuel)) '\x7d' fuel'
      (es.flatMap (fun e => ',' :: flatEntry e) ++ '\x7d' :: rest) = some (es, rest) := by
  induction es generalizing fuel' with
  | nil =>
      obtain ⟨fuel', rfl⟩ := Nat.exists_eq_succ_of_ne_zero (Nat.ne_of_gt hnum)
      rw [List.flatMap_nil, List.nil_append, readItems, skip_cons rfl]
      exact if_pos rfl
  | cons e es ih =>
      obtain ⟨fuel', rfl⟩ := Nat.exists_eq_succ_of_ne_zero (Nat.ne_of_gt (Nat.zero_lt_of_lt hnum))
      rw [List.forall_mem_cons] at hfuel
      have hnext : NoDigit (es.flatMap (fun e => ',' :: flatEntry e) ++ '\x7d' :: rest) := by
        rcases es with - | ⟨e', es⟩ <;> exact noDigit_cons rfl
      have ih := ih (Nat.lt_of_succ_lt_succ hnum) hfuel.2
      rw [List.flatMap_cons, List.cons_append, List.cons_append, List.append_assoc, readItems,
        skip_cons rfl]
      simp only [entry_flat hfuel.1 hnext, Option.bind_some, ih, Option.map_some]
      rfl

/-- The text is longer than each value in it, and than the number of them. -/
theorem length_printFlat (es : List (Key × Value)) :
    es.length < (printFlat es).length ∧ ∀ e ∈ es, (print 0 e.2).length < (printFlat es).length := by
  have hentry : ∀ e : Key × Value, (print 0 e.2).length < (flatEntry e).length := by
    intro e
    simp only [flatEntry, List.length_append, List.length_cons]
    omega
  have hnum : ∀ l : List (Key × Value),
      l.length ≤ (l.flatMap fun e => ',' :: flatEntry e).length := by
    intro l
    induction l with
    | nil => exact le_refl _
    | cons e l ih =>
        rw [List.flatMap_cons, List.length_append, List.length_cons, List.length_cons]
        omega
  rcases es with - | ⟨e, es⟩
  · exact ⟨Nat.succ_pos _, List.forall_mem_nil _⟩
  · have hrest := hnum es
    simp only [printFlat, List.length_cons, List.length_append, List.length_nil, List.mem_cons]
    refine ⟨by omega, ?_⟩
    rintro e' (rfl | he')
    · have hlt := hentry e'
      omega
    · have hmem : (',' :: flatEntry e') ∈ es.map fun e => ',' :: flatEntry e :=
        List.mem_map_of_mem he'
      have hle : (',' :: flatEntry e').length ≤ (es.flatMap fun e => ',' :: flatEntry e).length :=
        (List.sublist_flatten_of_mem hmem).length_le
      have hlt := hentry e'
      rw [List.length_cons] at hle
      omega

/-- **Round trip** of a map without white space. -/
theorem read_printFlat (es : List (Key × Value)) : read (printFlat es) = some (.map es) := by
  obtain ⟨hnum, hlen⟩ := length_printFlat es
  rcases es with - | ⟨e, es⟩
  · rfl
  · obtain ⟨fuel, hfuel⟩ : ∃ fuel, (printFlat (e :: es)).length = fuel + 1 := ⟨_, rfl⟩
    rw [hfuel, List.length_cons] at hnum
    rw [hfuel, List.forall_mem_cons] at hlen
    have hitems : readItems (entry ':' (parse fuel)) '\x7d' fuel
        (es.flatMap (fun e => ',' :: flatEntry e) ++ ['\x7d']) = some (es, []) :=
      readItems_flat (by omega) fun e' he' => Nat.le_of_lt_succ (hlen.2 e' he')
    have hfirst : NoDigit (es.flatMap (fun e => ',' :: flatEntry e) ++ ['\x7d']) := by
      rcases es with - | ⟨e', es⟩ <;> exact noDigit_cons rfl
    have hentry := entry_flat (Nat.le_of_lt_succ hlen.1) hfirst
    rw [read, hfuel, printFlat, parse, skip_cons rfl, List.append_assoc]
    simp only [sepBy, hentry, hitems, Option.map_some]
    rfl

/-! #### Maps of one entry a line -/

def printLine (sep : Char) (e : Key × Value) : List Char :=
  printKey e.1 ++ ' ' :: sep :: ' ' :: (print 0 e.2 ++ ['\n'])

/-- Entries, one a line, with `sep` between a key and its value. -/
def printLines (sep : Char) (es : List (Key × Value)) : List Char := es.flatMap (printLine sep)

/-- Entries up to the end of the text, each at the end of its line. -/
def lines (sep : Char) (value : Reader Value) : ℕ → List Char → Option (List (Key × Value))
  | 0, _ => none
  | fuel + 1, cs =>
    if skip cs = [] then some []
    else
      (entry sep value cs).bind fun (e, r) =>
        (expect ['\n'] r).bind fun r => (lines sep value fuel r).map fun es => e :: es

def readLines (sep : Char) (cs : List Char) : Option (List (Key × Value)) :=
  lines sep (parse cs.length) (cs.length + 1) cs

section Lines

variable {sep sep' : Char} {e : Key × Value} {es : List (Key × Value)}

theorem exists_printKey_eq (k : Key) : ∃ c cs, printKey k = c :: cs ∧ isSpace c = false := by
  cases k with
  | int n =>
      obtain ⟨d, ds, hd, hdigit⟩ := exists_toDigits_eq n
      exact ⟨d, ds, hd, (isDigit_or d hdigit).1⟩
  | str s => exact ⟨_, _, rfl, rfl⟩

theorem skip_printLines_ne_nil : skip (printLines sep (e :: es)) ≠ [] := by
  obtain ⟨c, cs, hc, hspace⟩ := exists_printKey_eq e.1
  rw [printLines, List.flatMap_cons, printLine, hc, List.cons_append, List.cons_append,
    skip_cons hspace]
  exact List.cons_ne_nil _ _

/-- A line begins with its key and the character after it. -/
theorem entry_printLines {value : Reader Value} (hspace : isSpace sep' = false)
    (hdigit : sep'.isDigit = false) : entry sep value (printLines sep' (e :: es)) =
      if sep = sep' then (value (' ' :: (print 0 e.2 ++ '\n' :: printLines sep' es))).map
        fun (v, r) => ((e.1, v), r)
      else none := by
  have htext : printLines sep' (e :: es) =
      [] ++ (printKey e.1 ++ ([' '] ++ sep' :: ' ' :: (print 0 e.2 ++ '\n' :: printLines sep' es))) := by
    simp [printLines, printLine]
  rw [htext, entry_printKey_append (List.forall_mem_nil _) (by simp [isSpace]) hspace hdigit]

/-- Lines are read one by one, up to the last. -/
theorem lines_printLines (hspace : isSpace sep = false) (hdigit : sep.isDigit = false)
    {fuel' : ℕ} (hnum : es.length < fuel') (hfuel : ∀ e ∈ es, (print 0 e.2).length ≤ fuel) :
    lines sep (parse fuel) fuel' (printLines sep es) = some es := by
  induction es generalizing fuel' with
  | nil =>
      obtain ⟨fuel', rfl⟩ := Nat.exists_eq_succ_of_ne_zero (Nat.ne_of_gt hnum)
      rfl
  | cons e es ih =>
      obtain ⟨fuel', rfl⟩ := Nat.exists_eq_succ_of_ne_zero (Nat.ne_of_gt (Nat.zero_lt_of_lt hnum))
      rw [List.forall_mem_cons] at hfuel
      have hval : parse fuel ([' '] ++ (print 0 e.2 ++ '\n' :: printLines sep es)) =
          some (e.2, '\n' :: printLines sep es) :=
        parse_print e.2 (by simp [isSpace]) hfuel.1 (noDigit_cons rfl)
      rw [List.singleton_append] at hval
      have ih := ih (Nat.lt_of_succ_lt_succ hnum) hfuel.2
      rw [lines, if_neg skip_printLines_ne_nil, entry_printLines hspace hdigit, if_pos rfl, hval]
      simp only [Option.map_some, Option.bind_some, expect, if_true, ih]

/-- The text is longer than each value in it, and than the number of them. -/
theorem length_printLines (sep : Char) (es : List (Key × Value)) :
    es.length ≤ (printLines sep es).length ∧
      ∀ e ∈ es, (print 0 e.2).length ≤ (printLines sep es).length := by
  induction es with
  | nil => exact ⟨Nat.zero_le _, List.forall_mem_nil _⟩
  | cons e es ih =>
      obtain ⟨hnum, hlen⟩ := ih
      have hline : (printLines sep (e :: es)).length =
          (printLine sep e).length + (printLines sep es).length := by
        rw [printLines, List.flatMap_cons, List.length_append]
        rfl
      have hentry : (print 0 e.2).length < (printLine sep e).length := by
        simp only [printLine, List.length_append, List.length_cons]
        omega
      rw [hline, List.length_cons, List.forall_mem_cons]
      refine ⟨by omega, by omega, fun e' he' => ?_⟩
      have hle := hlen e' he'
      omega

/-- **Round trip** of a map of one entry a line. -/
theorem readLines_printLines (hspace : isSpace sep = false) (hdigit : sep.isDigit = false)
    (es : List (Key × Value)) : readLines sep (printLines sep es) = some es := by
  obtain ⟨hnum, hlen⟩ := length_printLines sep es
  exact lines_printLines hspace hdigit (Nat.lt_succ_of_le hnum) hlen

/-- With another character after the keys it is refused. -/
theorem readLines_printLines_of_ne (hspace : isSpace sep' = false)
    (hdigit : sep'.isDigit = false) (hne : sep ≠ sep') :
    readLines sep (printLines sep' (e :: es)) = none := by
  rw [readLines, lines, if_neg skip_printLines_ne_nil, entry_printLines hspace hdigit, if_neg hne]
  rfl

/-- A value in brackets is not such a map. -/
theorem readLines_print_map (es : List (Key × Value)) :
    readLines sep (print 0 (.map es)) = none := by
  obtain ⟨cs, hcs⟩ : ∃ cs, print 0 (.map es) = '\x7b' :: cs := ⟨_, by rw [print, block_eq_cons]⟩
  have hkey : readKey ('\x7b' :: cs) = none := by
    rw [readKey, skip_cons rfl]
    simp [readNat_of_not_isDigit]
  rw [hcs, readLines, lines, skip_cons rfl, if_neg (List.cons_ne_nil _ _), entry, hkey]
  rfl

/-- The key is a value, and something follows it. -/
theorem read_printLines (hspace : isSpace sep = false) :
    read (printLines sep (e :: es)) = none := by
  obtain ⟨v, hv⟩ : ∃ v, print 0 v = printKey e.1 := by
    cases e.1 with
    | int n => exact ⟨.int n, rfl⟩
    | str s => exact ⟨.str s, rfl⟩
  have htext : printLines sep (e :: es) =
      [] ++ (print 0 v ++ ' ' :: sep :: ' ' :: (print 0 e.2 ++ '\n' :: printLines sep es)) := by
    simp [printLines, printLine, hv]
  rw [read, htext, parse_print v (List.forall_mem_nil _) (by simp) (noDigit_cons rfl)]
  show (if skip ([' '] ++ sep :: _) = [] then some v else none) = none
  rw [skip_append (by simp [isSpace]), skip_cons hspace, if_neg (List.cons_ne_nil _ _)]

end Lines

end Flow
