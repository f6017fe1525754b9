/-!
How classes are laid out, and the configuration that says so. All of it has
defaults, and a configuration may leave out the layout altogether.
-/
namespace SymbolTable

structure RenderOptions where
  /-- Whether a class shows its members. -/
  classMembers : Bool := false
  /-- What stands behind each field and method. -/
  memberTerminator : String := ";"
  /-- Blanks for each level of nesting. -/
  indentWidth : UInt64 := 4
  /-- Whether a class names its superclass. -/
  showSuperclass : Bool := false
  deriving DecidableEq, Repr

namespace RenderOptions

def default : RenderOptions := {}

def withMembers : RenderOptions :=
  { classMembers := true }

end RenderOptions

/-- The options that are given; the others keep their defaults. -/
structure GivenOptions where
  classMembers? : Option Bool := none
  memberTerminator? : Option String := none
  indentWidth? : Option UInt64 := none
  showSuperclass? : Option Bool := none
  deriving DecidableEq, Repr

def GivenOptions.complete (given : GivenOptions) : RenderOptions where
  classMembers := given.classMembers?.getD RenderOptions.default.classMembers
  memberTerminator := given.memberTerminator?.getD RenderOptions.default.memberTerminator
  indentWidth := given.indentWidth?.getD RenderOptions.default.indentWidth
  showSuperclass := given.showSuperclass?.getD RenderOptions.default.showSuperclass

structure Config where
  render? : Option RenderOptions
  deriving DecidableEq, Repr

def Config.options (config : Config) : RenderOptions :=
  config.render?.getD .default

end SymbolTable
