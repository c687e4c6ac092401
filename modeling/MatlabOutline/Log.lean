import MatlabOutline.Text.Basic

/-! Messages about the work as it goes on. -/
namespace MatlabOutline

inductive Level where
  | debug | info | warning
  deriving DecidableEq, Repr

def Level.label : Level → Text
  | debug => "DEBUG".toList
  | info => "INFO".toList
  | warning => "WARNING".toList

structure Message where
  level : Level
  text : Text
  deriving DecidableEq, Repr

abbrev Log := List Message

end MatlabOutline
