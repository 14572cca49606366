import Playbook.Host
import Playbook.Text.Blank
import Playbook.Text.Digit
import Playbook.Text.Rule
import Playbook.Text.Word

/-!
# Wording

Documents are written for one assistant. Led over to the host, they lose the blocks that choose
a model, speak of the host by its name, and tell it right behind every `<process>` tag which
directory it works in, unless they do so already.

Results:
* `strike_of_absent`: a text without a block to strike stays as it is.
-/
namespace Playbook.Wording

/-! ## Blocks to strike -/

/-- The length of what a pattern matches at the start of a text. -/
abbrev Pattern := Text → Option Nat

def literal (pattern : Text) : Pattern := fun t =>
  if Text.startsWith pattern t then some pattern.length else none

/-- A heading with a number, a dot and then `title`. -/
def numbered (title : Text) : Pattern := fun t =>
  match Text.after? "## " t with
  | none => none
  | some rest =>
    let digits := rest.takeWhile Text.isDigit
    if digits.isEmpty then none
    else if Text.startsWith ("." ++ title) (rest.dropWhile Text.isDigit) then
      some (3 + digits.length + 1 + title.length)
    else none

/-- The text without its blocks. A block starts where `start` matches and runs to where `stop`
next matches behind that, or to the end. The first `skip` characters belong to a match of
`start`; `inBlock` says whether a block is open. -/
def strikeFrom (start stop : Pattern) : (skip : Nat) → (inBlock : Bool) → Text → Text
  | _, _, [] => []
  | skip + 1, inBlock, _ :: t => strikeFrom start stop skip inBlock t
  | 0, inBlock, c :: t =>
    if inBlock && (stop (c :: t)).isNone then strikeFrom start stop 0 true t
    else match start (c :: t) with
      | some width => strikeFrom start stop (width - 1) true t
      | none => c :: strikeFrom start stop 0 false t

def strike (start stop : Pattern) (t : Text) : Text := strikeFrom start stop 0 false t

theorem strike_of_absent {start stop : Pattern} {t : Text}
    (h : ∀ u v, t = u ++ v → v ≠ [] → start v = none) : strike start stop t = t := by
  unfold strike
  induction t with
  | nil => rfl
  | cons c t ih =>
    have hc : start (c :: t) = none := h [] (c :: t) rfl (by simp)
    simp only [strikeFrom, Bool.false_and, Bool.false_eq_true, if_false, hc]
    rw [ih]
    intro u v huv hv
    exact h (c :: u) v (by simp [huv]) hv

def modelTitle : Text := "Resolve Model Profile"

def anyHeading : Text := "## "

/-- The text without the blocks that choose a model. -/
def strikeModels (t : Text) : Text :=
  let t := strike (numbered (" " ++ modelTitle)) (numbered []) t
  let t := strike (literal (anyHeading ++ modelTitle)) (literal anyHeading) t
  strike (literal "**Model lookup table:**") (literal anyHeading) t

/-! ## Names -/

/-- What follows `lead`, which is in lower case, whatever the case of ASCII letters in `t`. -/
def afterAnyCase? : (lead t : Text) → Option Text
  | [], t => some t
  | _ :: _, [] => none
  | a :: lead, c :: t => if a = c.toLower then afterAnyCase? lead t else none

/-- The edit of a name that ends before `rest`, if it stands between word boundaries; the name
starts and ends with a word character. -/
def wordEdit (before rest : Text) (width : Nat) (written : Text) : Option Edit :=
  if Text.isWordAt before.head? || Text.isWordAt rest.head? then none
  else some ⟨width, written⟩

/-- Replace a word or a phrase. -/
def wordRule (found written : Text) : Rule := fun before rest =>
  (Text.after? found rest).bind fun remaining =>
    wordEdit before remaining found.length written

/-- The names of the other assistant's programs, in lower case. -/
def products : List Text := ["claude code", "claude.ai"]

/-- Replace the name of a program in any case. -/
def productRule : Rule := fun before rest =>
  products.findSome? fun product =>
    (afterAnyCase? product rest).bind fun remaining =>
      wordEdit before remaining product.length Host.name

/-- The rules for names, in the order of their application. -/
def nameRules : List Rule :=
  [productRule, wordRule "Claude" Host.name, wordRule "CLAUDE.md" Host.rulesFile,
    wordRule "CLAUDE" Host.nameUpper]

def rename (t : Text) : Text := nameRules.foldl (fun t rule => rule.apply t) t

/-! ## Notice -/

def processTag : Text := "<process>"

/-- The notice as a block of its own. -/
def notice : Text := "\n\n> [!IMPORTANT]\n> " ++ Host.contextNotice ++ "> " ++ Host.directoryNotice

/-- The text with the notice behind each process tag, unless it already has one. -/
def addNotice (t : Text) : Text :=
  if Text.occursIn Host.directoryMark t then t
  else (Rule.replacing processTag (processTag ++ notice)).apply t

/-- The text as it reads for the host. -/
def forHost (t : Text) : Text := addNotice (rename (strikeModels t))

end Playbook.Wording
