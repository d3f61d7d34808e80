import HygienicScheme.Error
import HygienicScheme.Value

/-! Values as numbers of the host. -/
namespace HygienicScheme.Value

def asInteger : Value → Except Error Int64
  | int n => .ok n
  | v => .error (.type (.conversion "integer" v.typeName))

def asFloat : Value → Except Error Float
  | int n => .ok (Float.ofInt n.toInt)
  | float x => .ok x
  | v => .error (.type (.conversion "number" v.typeName))

end HygienicScheme.Value
