import Mathlib.Tactic.SplitIfs
import SelectionModel.Source.DefinitionText

/-!
# Scanning bytes

The scan for the end of a definition reads a text byte by byte: it keeps an index, looks
ahead from there for three quotes, and jumps over comments and strings. Whatever is read is
read from the bytes of the text, and a read that would leave them is a fault.

* `skipString`, `skipBlockString`: where a string ends.
* `step`: what the scan does at an index.
* `closingBrace`: where the first pair of braces is closed.
* `definitionText`: the text up to there.
-/

namespace SelectionModel

namespace Text

/-- The UTF-8 form. -/
def utf8 (cs : List Char) : List UInt8 := cs.flatMap String.utf8EncodeChar

/-- The first `n` bytes: nothing is returned when the text is shorter or they end inside a
character. -/
def takeBytes : Nat → List Char → Option (List Char)
  | 0, _ => some []
  | _ + 1, [] => none
  | n + 1, c :: cs =>
    if c.utf8Size ≤ n + 1 then (takeBytes (n + 1 - c.utf8Size) cs).map (c :: ·) else none

/-- The text between two byte offsets: nothing is returned when one of them is past the end
or inside a character, or when they are in the wrong order. -/
def slice? (start stop : Nat) (cs : List Char) : Option (List Char) :=
  if start ≤ stop then (dropBytes start cs).bind (takeBytes (stop - start)) else none

end Text

namespace ByteScan

/-- A read that leaves the text: a byte at an index, or the bytes from an index on. -/
inductive Fault where
  | index (i length : Nat)
  | slice (start length : Nat)
  deriving DecidableEq, Repr

variable {bytes : List UInt8} {i j braces parens : Nat}

/-- The byte at an index. -/
def byteAt (bytes : List UInt8) (i : Nat) : Except Fault UInt8 :=
  match bytes[i]? with
  | some b => .ok b
  | none => .error (.index i bytes.length)

/-- The bytes from an index on. -/
def bytesFrom (bytes : List UInt8) (i : Nat) : Except Fault (List UInt8) :=
  if i ≤ bytes.length then .ok (bytes.drop i) else .error (.slice i bytes.length)

/-- Whether a word stands at an index. -/
def startsWith (bytes : List UInt8) (i : Nat) (word : List Char) : Except Fault Bool :=
  (bytesFrom bytes i).map (Text.utf8 word).isPrefixOf

/-! ## Strings -/

/-- The index behind the quote that ends a string, from an index inside of it. -/
def skipString (bytes : List UInt8) (i : Nat) : Except Fault (Option Nat) :=
  if i < bytes.length then do
    let b ← byteAt bytes i
    if b = '\\'.toUInt8 then skipString bytes (i + 2)
    else if b = '"'.toUInt8 then return some (i + 1)
    else if b = '\n'.toUInt8 then return none
    else skipString bytes (i + 1)
  else return none
termination_by bytes.length - i

/-- The index behind the quotes that end a block string, from an index inside of it. -/
def skipBlockString (bytes : List UInt8) (i : Nat) : Except Fault (Option Nat) :=
  if i < bytes.length then do
    if ← startsWith bytes i ('\\' :: DefinitionText.tripleQuote) then
      skipBlockString bytes (i + 4)
    else if ← startsWith bytes i DefinitionText.tripleQuote then return some (i + 3)
    else skipBlockString bytes (i + 1)
  else return none
termination_by bytes.length - i

/-! ## Code -/

/-- What the scan does at an index: it goes on at another one, finds the closing brace or
gives up. -/
inductive Step where
  | on (next braces parens : Nat)
  | closed
  | stop
  deriving DecidableEq, Repr

/-- Goes on behind a string, if that ends. -/
def Step.behind (braces parens : Nat) : Option Nat → Step
  | some next => .on next braces parens
  | none => .stop

/-- What the scan does at a byte that begins neither a comment nor a string. -/
def Step.ofByte (b : UInt8) (i braces parens : Nat) : Step :=
  if b = '('.toUInt8 then .on (i + 1) braces (parens + 1)
  else if b = ')'.toUInt8 then .on (i + 1) braces (parens - 1)
  else if b = '\x7b'.toUInt8 ∧ parens = 0 then .on (i + 1) (braces + 1) parens
  else if b = '\x7d'.toUInt8 ∧ parens = 0 then
    match braces with
    | 0 => .stop
    | 1 => .closed
    | braces + 2 => .on (i + 1) (braces + 1) parens
  else .on (i + 1) braces parens

/-- **What the scan does at an index.** A comment goes up to its line break, or to the end. -/
def step (bytes : List UInt8) (i braces parens : Nat) : Except Fault Step := do
  let b ← byteAt bytes i
  if b = '#'.toUInt8 then
    let rest ← bytesFrom bytes i
    return .on ((rest.findIdx? (· = '\n'.toUInt8)).elim bytes.length (i + ·)) braces parens
  else if b = '"'.toUInt8 then
    if ← startsWith bytes i DefinitionText.tripleQuote then
      return .behind braces parens (← skipBlockString bytes (i + 3))
    else return .behind braces parens (← skipString bytes (i + 1))
  else return .ofByte b i braces parens

/-! ## Reads that stay in the text -/

theorem byteAt_eq_ok (h : i < bytes.length) : byteAt bytes i = .ok bytes[i] := by
  rw [byteAt, List.getElem?_eq_getElem h]

theorem bytesFrom_eq_ok (h : i ≤ bytes.length) : bytesFrom bytes i = .ok (bytes.drop i) :=
  if_pos h

theorem startsWith_eq_ok (h : i ≤ bytes.length) (word : List Char) :
    startsWith bytes i word = .ok ((Text.utf8 word).isPrefixOf (bytes.drop i)) := by
  rw [startsWith, bytesFrom_eq_ok h]
  rfl

/-- **What goes on until it is behind something or nothing is left** has no faults, and what
follows is farther on. -/
theorem exists_of_skips (bytes : List UInt8) {skip : Nat → Except Fault (Option Nat)}
    (hstep : ∀ i, skip i = .ok none ∨ (∃ k, i < k ∧ skip i = .ok (some k)) ∨
      (i < bytes.length ∧ ∃ k, i < k ∧ skip i = skip k)) (i : Nat) :
    ∃ next, skip i = .ok next ∧ ∀ j ∈ next, i < j := by
  induction h : bytes.length - i using Nat.strongRecOn generalizing i with
  | ind n ih =>
    subst h
    obtain hnone | ⟨k, hk, hsome⟩ | ⟨hi, k, hk, hgoesOn⟩ := hstep i
    · exact ⟨none, hnone, by simp⟩
    · exact ⟨some k, hsome, fun j hj => Option.mem_some.1 hj ▸ hk⟩
    · obtain ⟨next, hnext, hlt⟩ := ih (bytes.length - k) (by omega) k rfl
      exact ⟨next, hgoesOn.trans hnext, fun j hj => Nat.lt_trans hk (hlt j hj)⟩

/-- **A string is skipped without a fault**, and what follows it is farther on. -/
theorem exists_skipString (bytes : List UInt8) (i : Nat) :
    ∃ next, skipString bytes i = .ok next ∧ ∀ j ∈ next, i < j := by
  refine exists_of_skips bytes (fun i => ?_) i
  rw [skipString]
  by_cases hi : i < bytes.length
  · rw [if_pos hi, byteAt_eq_ok hi]
    simp only [bind, Except.bind]
    split_ifs
    · exact .inr (.inr ⟨hi, i + 2, by omega, rfl⟩)
    · exact .inr (.inl ⟨i + 1, by omega, rfl⟩)
    · exact .inl rfl
    · exact .inr (.inr ⟨hi, i + 1, by omega, rfl⟩)
  · rw [if_neg hi]
    exact .inl rfl

/-- **A block string is skipped without a fault**, and what follows it is farther on. -/
theorem exists_skipBlockString (bytes : List UInt8) (i : Nat) :
    ∃ next, skipBlockString bytes i = .ok next ∧ ∀ j ∈ next, i < j := by
  refine exists_of_skips bytes (fun i => ?_) i
  rw [skipBlockString]
  by_cases hi : i < bytes.length
  · rw [if_pos hi, startsWith_eq_ok (Nat.le_of_lt hi), startsWith_eq_ok (Nat.le_of_lt hi)]
    simp only [bind, Except.bind]
    split_ifs
    · exact .inr (.inr ⟨hi, i + 4, by omega, rfl⟩)
    · exact .inr (.inl ⟨i + 3, by omega, rfl⟩)
    · exact .inr (.inr ⟨hi, i + 1, by omega, rfl⟩)
  · rw [if_neg hi]
    exact .inl rfl

theorem lt_of_ofByte {b : UInt8} {braces' parens' : Nat}
    (h : Step.ofByte b i braces parens = .on j braces' parens') : i < j := by
  unfold Step.ofByte at h
  split_ifs at h
  all_goals try
    injection h
    omega
  split at h <;> injection h
  omega

/-- **Inside the text a step makes no fault**, and where it goes on is farther on. -/
theorem exists_step (h : i < bytes.length) (braces parens : Nat) :
    ∃ next, step bytes i braces parens = .ok next ∧
      ∀ j braces' parens', next = .on j braces' parens' → i < j := by
  rw [step, byteAt_eq_ok h]
  simp only [bind, Except.bind]
  split_ifs with hhash hquote
  · -- the byte itself is no line break
    rw [bytesFrom_eq_ok (Nat.le_of_lt h)]
    refine ⟨_, rfl, fun j braces' parens' hj => ?_⟩
    injection hj with hj
    cases hn : (bytes.drop i).findIdx? (· = '\n'.toUInt8) with
    | none =>
      rw [hn] at hj
      exact hj ▸ h
    | some n =>
      rw [hn] at hj
      have hbyte : (bytes.drop i)[n]? = some '\n'.toUInt8 := by
        obtain ⟨hlt, he, -⟩ := List.findIdx?_eq_some_iff_getElem.1 hn
        rw [List.getElem?_eq_getElem hlt, of_decide_eq_true he]
      have hzero : n ≠ 0 := by
        rintro rfl
        rw [List.getElem?_drop, Nat.add_zero, List.getElem?_eq_getElem h, hhash] at hbyte
        exact absurd (Option.some.inj hbyte) (by decide)
      have : i + n = j := hj
      omega
  · rw [startsWith_eq_ok (Nat.le_of_lt h)]
    have behind : ∀ {k : Nat} {next : Option Nat}, i < k → (∀ j ∈ next, k < j) →
        ∀ j braces' parens', Step.behind braces parens next = .on j braces' parens' → i < j := by
      intro k next hk hnext j braces' parens' hj
      cases next with
      | none => cases hj
      | some n =>
        injection hj with hj
        exact hj ▸ Nat.lt_trans hk (hnext n rfl)
    simp only
    split_ifs
    · obtain ⟨next, hnext, hlt⟩ := exists_skipBlockString bytes (i + 3)
      rw [hnext]
      exact ⟨_, rfl, behind (by omega) hlt⟩
    · obtain ⟨next, hnext, hlt⟩ := exists_skipString bytes (i + 1)
      rw [hnext]
      exact ⟨_, rfl, behind (by omega) hlt⟩
  · exact ⟨_, rfl, fun j braces' parens' hj => lt_of_ofByte hj⟩

theorem lt_of_step {braces' parens' : Nat} (hi : i < bytes.length)
    (h : step bytes i braces parens = .ok (.on j braces' parens')) : i < j := by
  obtain ⟨next, hnext, hlt⟩ := exists_step hi braces parens
  exact hlt j braces' parens' (Except.ok.inj (hnext.symm.trans h))

/-- The index behind the brace that closes the first pair of braces, from an index on. -/
def closingBrace (bytes : List UInt8) (i braces parens : Nat) : Except Fault (Option Nat) :=
  if i < bytes.length then
    match h : step bytes i braces parens with
    | .error fault => .error fault
    | .ok .stop => .ok none
    | .ok .closed => .ok (some (i + 1))
    | .ok (.on next braces parens) => closingBrace bytes next braces parens
  else .ok none
termination_by bytes.length - i
decreasing_by
  have := lt_of_step ‹i < bytes.length› h
  omega

/-- **The text from a byte offset through the brace that closes the first pair of braces
found there**, or the first fault. -/
def definitionText (content : List Char) (start : Nat) : Except Fault (Option (List Char)) :=
  (closingBrace (Text.utf8 content) start 0 0).map fun stop =>
    stop.bind fun stop => Text.slice? start stop content

end ByteScan

end SelectionModel
