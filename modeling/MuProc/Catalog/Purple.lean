import MuProc.Catalog.Spec
import MuProc.Formula.Ctl

/-!
# Purple

An attacker collapses the key space of a cipher. Traffic analysis may be repeated
without bound; each round is a nested call, so the history of the attack is the
call stack.
-/

namespace MuProc.Catalog

/-- Intercepting, analysing and solving the two channels of the cipher. -/
def purpleModel : Model :=
  .ofDefinitions "purple" "Attack" [
    { name := "Attack", props := ["unknownKey"],
      rules := [[.act "intercept" .must, .run "Analyse", .act "report" .must]] },
    { name := "Analyse", props := ["unsolved"],
      rules := [[.act "observe" .may, .run "Analyse"], [.act "solveVowels" .must, .run "Vowels"]] },
    { name := "Vowels", props := ["vowelSolved"],
      rules := [[.act "solveConsonants" .must, .run "Consonants"]] },
    { name := "Consonants", props := ["consonantSolved"],
      rules := [[.act "deduce" .must, .run "UniqueKey"]] },
    { name := "UniqueKey", props := ["attackerKnowsKey"], rules := [[.act "read" .must]] }]

def purpleProperties : List Property :=
  let knows := Formula.atom "attackerKnowsKey"
  [ { name := "AF attackerKnowsKey"
      description := "Eventually the attacker uniquely knows the key."
      formula := .af knows
      expect := some true },
    { name := "AG !attackerKnowsKey"
      description := "Key remains forever unknown (desired but false)."
      formula := .ag (.not knows)
      expect := some false },
    { name := "EG !attackerKnowsKey"
      description := "Traffic analysis may go on forever without recovering the key."
      formula := .eg (.not knows)
      expect := some true },
    { name := "A[!vowelSolved U consonantSolved]"
      description := "Consonants are solved before vowels on every run (they never are)."
      formula := .au (.not (.atom "vowelSolved")) (.atom "consonantSolved")
      expect := some false },
    { name := "AG(consonantSolved -> AX attackerKnowsKey)"
      description := "Once both channels are solved the key follows in one step."
      formula := .ag (.implies (.atom "consonantSolved") (.ax knows))
      expect := some true } ]

/-- The attack on the cipher, with its properties. -/
def purple : Spec where
  description :=
    "Scenario: Japanese PURPLE diplomatic cipher keyspace collapse.\n" ++
    "\n" ++
    "We model the attacker's progress in shrinking the key hypothesis space\n" ++
    "as more traffic is observed. Because the cipher splits the alphabet\n" ++
    "into independent vowel and consonant channels, the effective keyspace\n" ++
    "collapses much faster than for a well-designed rotor machine."
  model := purpleModel
  properties := purpleProperties

end MuProc.Catalog
