import LegacyPhp.Text.Basic

/-!
# Reserved words

The reserved words of PHP. They are written in any mixture of cases, and one of them has two
spellings: `die` is `exit`.
-/

namespace LegacyPhp

/-- A reserved word. -/
inductive Keyword where
  | abstractKw | andKw | arrayKw | asKw | breakKw | callableKw | caseKw | catchKw | classKw
  | cloneKw | constKw | continueKw | declareKw | defaultKw | doKw | echoKw | elseKw | elseIfKw
  | emptyKw | endDeclareKw | endForKw | endForeachKw | endIfKw | endSwitchKw | endWhileKw
  | evalKw | exitKw | extendsKw | finalKw | finallyKw | forKw | foreachKw | functionKw
  | globalKw | gotoKw | ifKw | implementsKw | includeKw | includeOnceKw | instanceOfKw
  | insteadOfKw | interfaceKw | issetKw | listKw | namespaceKw | newKw | orKw | printKw
  | privateKw | protectedKw | publicKw | requireKw | requireOnceKw | returnKw | staticKw
  | switchKw | throwKw | traitKw | tryKw | unsetKw | useKw | varKw | whileKw | xorKw | yieldKw
  deriving DecidableEq, Repr, Inhabited

namespace Keyword

/-- Every spelling in lower case, with the word it stands for. -/
def spellings : List (Text × Keyword) :=
  [ ("abstract".toList, .abstractKw), ("and".toList, .andKw), ("array".toList, .arrayKw),
    ("as".toList, .asKw), ("break".toList, .breakKw), ("callable".toList, .callableKw),
    ("case".toList, .caseKw), ("catch".toList, .catchKw), ("class".toList, .classKw),
    ("clone".toList, .cloneKw), ("const".toList, .constKw), ("continue".toList, .continueKw),
    ("declare".toList, .declareKw), ("default".toList, .defaultKw), ("do".toList, .doKw),
    ("echo".toList, .echoKw), ("else".toList, .elseKw), ("elseif".toList, .elseIfKw),
    ("empty".toList, .emptyKw), ("enddeclare".toList, .endDeclareKw),
    ("endfor".toList, .endForKw), ("endforeach".toList, .endForeachKw),
    ("endif".toList, .endIfKw), ("endswitch".toList, .endSwitchKw),
    ("endwhile".toList, .endWhileKw), ("eval".toList, .evalKw), ("exit".toList, .exitKw),
    ("die".toList, .exitKw), ("extends".toList, .extendsKw), ("final".toList, .finalKw),
    ("finally".toList, .finallyKw), ("for".toList, .forKw), ("foreach".toList, .foreachKw),
    ("function".toList, .functionKw), ("global".toList, .globalKw), ("goto".toList, .gotoKw),
    ("if".toList, .ifKw), ("implements".toList, .implementsKw), ("include".toList, .includeKw),
    ("include_once".toList, .includeOnceKw), ("instanceof".toList, .instanceOfKw),
    ("insteadof".toList, .insteadOfKw), ("interface".toList, .interfaceKw),
    ("isset".toList, .issetKw), ("list".toList, .listKw), ("namespace".toList, .namespaceKw),
    ("new".toList, .newKw), ("or".toList, .orKw), ("print".toList, .printKw),
    ("private".toList, .privateKw), ("protected".toList, .protectedKw),
    ("public".toList, .publicKw), ("require".toList, .requireKw),
    ("require_once".toList, .requireOnceKw), ("return".toList, .returnKw),
    ("static".toList, .staticKw), ("switch".toList, .switchKw), ("throw".toList, .throwKw),
    ("trait".toList, .traitKw), ("try".toList, .tryKw), ("unset".toList, .unsetKw),
    ("use".toList, .useKw), ("var".toList, .varKw), ("while".toList, .whileKw),
    ("xor".toList, .xorKw), ("yield".toList, .yieldKw) ]

/-- The reserved word that a text spells, in any case of letters. -/
def ofWord? (word : Text) : Option Keyword := spellings.lookup (Text.lower word)

/-- The four directives that read another file. -/
def isInclusion : Keyword → Bool
  | includeKw | includeOnceKw | requireKw | requireOnceKw => true
  | _ => false

end Keyword

end LegacyPhp
