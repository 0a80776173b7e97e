import LegacyPhp.Text.Basic

/-!
# The helper class behind lifted closures

The source of the class that holds captured values at run time and turns a lifted function into a
callable string. It is declared only where no class of its name exists.
-/

namespace LegacyPhp

/-- The source of the class up to its name in quotes. -/
def classCheck : Text := "if (!class_exists(".toList

/-- The source of the class up to its own name. -/
def classOpening : Text :=
  ", FALSE)) \x7b\n".toList ++ "/** @internal */\n".toList ++ "class ".toList

/-- The source of the class up to the code that it makes. -/
def classCreate : Text :=
  "\n\x7b\n".toList ++
  "\tpublic static $fixes = array();\n\n".toList ++
  "\tstatic function create($callback, $vars, $params = '', $args = '')\n".toList ++
  "\t\x7b\n".toList ++
  "\t\t$id = count(self::$fixes);\n".toList ++
  "\t\tself::$fixes[$id] = array($callback, $vars);\n".toList ++
  "\t\t$forward = $args === '' ? 'func_get_args()' : \"array($args)\";\n".toList ++
  "\t\treturn create_function($params, ".toList

/-- The code that the class makes. -/
def classReturn (name : Text) : Text :=
  "return ".toList ++ name ++ "::invoke($id, $forward);".toList

/-- The rest of the class. -/
def classInvoke : Text :=
  ");\n".toList ++
  "\t\x7d\n\n".toList ++
  "\tstatic function invoke($id, $args)\n".toList ++
  "\t\x7b\n".toList ++
  "\t\t$all = array();\n".toList ++
  "\t\tforeach (self::$fixes[$id][1] as $key => $value) \x7b\n".toList ++
  "\t\t\t$all[] = & self::$fixes[$id][1][$key];\n".toList ++
  "\t\t\x7d\n".toList ++
  "\t\tforeach ($args as $key => $value) \x7b\n".toList ++
  "\t\t\t$all[] = & $args[$key];\n".toList ++
  "\t\t\x7d\n".toList ++
  "\t\treturn call_user_func_array(self::$fixes[$id][0], $all);\n".toList ++
  "\t\x7d\n\x7d\n\x7d".toList

/-- The source of the helper class under the given name (`shim_source`). -/
def closureHelperSource (name : Text) : Text :=
  classCheck ++ ('\'' :: name ++ '\'' :: (classOpening ++ (name ++ (classCreate ++
    ('"' :: classReturn name ++ '"' :: (classInvoke ++ ['\n']))))))

end LegacyPhp
