import ClassAsm.Directive

/-! The switches of a compilation. -/

namespace ClassAsm

structure Options where
  /-- Show the inner form of errors. -/
  devDebug : Bool := false
  muteMainNotDefined : Bool := false
  muteUselessCode : Bool := false
  muteUnreachableCode : Bool := false
  /-- Leave out statements that control cannot reach. -/
  trimUnreachableCode : Bool := false
  /-- Leave out expression statements that are no calls. -/
  trimUselessCode : Bool := false
  /-- A program without `main` deserves a warning. -/
  requireMain : Bool := true
  assemblyName : String := "Program"
deriving DecidableEq, Repr

namespace Options

def setWarnings (o : Options) (muted : Bool) : Options :=
  { o with muteMainNotDefined := muted, muteUselessCode := muted, muteUnreachableCode := muted }

def setTrim (o : Options) (on : Bool) : Options :=
  { o with trimUnreachableCode := on, trimUselessCode := on }

def apply (o : Options) (d : Directive) : Options :=
  match d.kind with
  | .devDebug => { o with devDebug := d.value }
  | .trimUnreachableCode => { o with trimUnreachableCode := d.value }
  | .warnMainNotDefined => { o with muteMainNotDefined := !d.value }

/-- Applies directives in order, so that the last one of a kind wins. -/
def applyAll (o : Options) (ds : List Directive) : Options := ds.foldl apply o

end Options
end ClassAsm
