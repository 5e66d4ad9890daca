import Compiscript.Token
import Compiscript.Ty

/-!
# Complaints

What the checker can find wrong with a program, and how it says so.
-/

namespace Compiscript

/-- Statements with a condition. -/
inductive Conditional where
  | if
  | while
  | doWhile
  | for
deriving DecidableEq, Repr, Inhabited

namespace Conditional

def keyword : Conditional → String
  | .if => "if"
  | .while => "while"
  | .doWhile => "do-while"
  | .for => "for"

end Conditional

/-- Statements that leave or repeat a loop. -/
inductive Jump where
  | break
  | continue
deriving DecidableEq, Repr, Inhabited

namespace Jump

def keyword : Jump → String
  | .break => "break"
  | .continue => "continue"

end Jump

/-- What is wrong with a program. -/
inductive Complaint where
  | noType (name : String)
  | redeclared (name : String)
  | undeclared (name : String)
  | variableMismatch (name : String) (wanted found : Ty)
  | constantMismatch (name : String) (wanted found : Ty)
  | constantAssigned (name : String)
  | malformedPropertyAssignment
  | namelessPropertyAssignment
  | propertyOfNoObject
  | noClass (name : String)
  | noField (className field : String)
  | constantFieldAssigned (field : String)
  | fieldMismatch (field : String) (wanted found : Ty)
  | conditionNotBoolean (statement : Conditional)
  | foreachOverNoArray
  | jumpOutsideLoop (jump : Jump)
  | returnOutsideFunction
  | returnMismatch (found wanted : Ty)
  | noBaseClass (name : String)
  | duplicateField (className field : String)
  | duplicateMethod (className method : String)
  | ternaryPredicate
  | ternaryBranches
  | logicalOperand
  | incomparable
  | relationalOperand
  | stringOperator
  | additiveOperand
  | memberOfNoObject
  | noMember (className member : String)
  | notCallable
  | argumentCount (function : String) (wanted found : Nat)
  | argumentMismatch (i : Nat) (function : String) (wanted found : Ty)
  | indexedNoArray
  | indexNotInteger
  | namelessNew
  | constructorCount (className : String) (wanted found : Nat)
  | constructorMismatch (i : Nat) (className : String) (wanted found : Ty)
  | deadCode
  | mixedArray (i : Nat) (found wanted : Ty)
  | switchNotInteger (found : Ty)
  | caseMismatch (wanted found : Ty)
deriving DecidableEq, Repr, Inhabited

namespace Complaint

/-- The wording of a complaint. -/
def message : Complaint → String
  | noType name =>
    "No se puede inferir el tipo de '" ++ name ++ "' sin anotación ni inicializador."
  | redeclared name => "Redeclaración en el mismo ámbito: " ++ name
  | undeclared name => "Variable no declarada: " ++ name
  | variableMismatch name wanted found =>
    "Asignación incompatible: variable '" ++ name ++ "' es " ++ wanted.display ++
      " pero expresión es " ++ found.display ++ "."
  | constantMismatch name wanted found =>
    "Constante '" ++ name ++ "' declarada como " ++ wanted.display ++
      " pero inicializa con " ++ found.display ++ "."
  | constantAssigned name => "No se puede asignar a constante '" ++ name ++ "'."
  | malformedPropertyAssignment => "Asignación de propiedad mal formada."
  | namelessPropertyAssignment =>
    "No se pudo determinar el nombre de la propiedad en la asignación."
  | propertyOfNoObject => "La asignación de propiedad requiere un objeto."
  | noClass name => "Clase '" ++ name ++ "' no declarada."
  | noField className field =>
    "La clase '" ++ className ++ "' no tiene campo '" ++ field ++ "'."
  | constantFieldAssigned field => "No se puede asignar al campo constante '" ++ field ++ "'."
  | fieldMismatch field wanted found =>
    "Asignación incompatible: campo '" ++ field ++ "' es " ++ wanted.display ++
      " pero expresión es " ++ found.display ++ "."
  | conditionNotBoolean statement =>
    "La condición de '" ++ statement.keyword ++ "' debe ser boolean."
  | foreachOverNoArray => "El 'foreach' requiere iterar sobre un arreglo."
  | jumpOutsideLoop jump => "'" ++ jump.keyword ++ "' solo se permite dentro de bucles."
  | returnOutsideFunction => "'return' solo se permite dentro de una función."
  | returnMismatch found wanted =>
    "El 'return' devuelve " ++ found.display ++ " pero la función retorna " ++
      wanted.display ++ "."
  | noBaseClass name => "Clase base '" ++ name ++ "' no declarada."
  | duplicateField className field =>
    "Campo duplicado en clase '" ++ className ++ "': " ++ field
  | duplicateMethod className method =>
    "Método duplicado en clase '" ++ className ++ "': " ++ method
  | ternaryPredicate => "El predicado del operador ternario debe ser boolean."
  | ternaryBranches => "Ambas ramas del operador ternario deben tener el mismo tipo."
  | logicalOperand => "Operación lógica requiere booleanos."
  | incomparable => "Comparación entre tipos incompatibles."
  | relationalOperand => "Comparación relacional requiere números."
  | stringOperator => "Operación aditiva con string solo permite '+'."
  | additiveOperand => "Suma/resta requiere operandos numéricos (integer/float)."
  | memberOfNoObject => "Acceso a miembro requiere un objeto."
  | noMember className member => "'" ++ className ++ "' no tiene miembro '" ++ member ++ "'."
  | notCallable => "Llamada aplicada a algo que no es función declarada."
  | argumentCount function wanted found =>
    "La función '" ++ function ++ "' espera " ++ toString wanted ++
      " argumentos; recibió " ++ toString found ++ "."
  | argumentMismatch i function wanted found =>
    "Argumento " ++ toString i ++ " de '" ++ function ++ "' debe ser " ++ wanted.display ++
      "; recibió " ++ found.display ++ "."
  | indexedNoArray => "Indexación requiere un arreglo."
  | indexNotInteger => "El índice de un arreglo debe ser integer."
  | namelessNew => "No se pudo determinar el nombre de la clase en 'new'."
  | constructorCount className wanted found =>
    "El constructor de '" ++ className ++ "' espera " ++ toString wanted ++
      " argumentos; recibió " ++ toString found ++ "."
  | constructorMismatch i className wanted found =>
    "Argumento " ++ toString i ++ " del constructor de '" ++ className ++ "' debe ser " ++
      wanted.display ++ "; recibió " ++ found.display ++ "."
  | deadCode =>
    "Código muerto: no se puede ejecutar después de una sentencia que termina el flujo."
  | mixedArray i found wanted =>
    "Arreglo heterogéneo: elemento " ++ toString i ++ " es " ++ found.display ++
      ", esperado " ++ wanted.display ++ "."
  | switchNotInteger found =>
    "La condición de 'switch' debe ser integer; recibió " ++ found.display ++ "."
  | caseMismatch wanted found =>
    "El 'case' debe ser " ++ wanted.display ++ "; recibió " ++ found.display ++ "."

end Complaint

/-- A complaint and the place it is about. -/
structure SemanticError where
  pos : Pos
  complaint : Complaint
deriving DecidableEq, Repr, Inhabited

namespace SemanticError

/-- An error as it is listed for the user. -/
def display (e : SemanticError) : String :=
  "[SemanticError] L" ++ toString e.pos.line ++ ":C" ++ toString e.pos.column ++ " " ++
    e.complaint.message

end SemanticError

end Compiscript
