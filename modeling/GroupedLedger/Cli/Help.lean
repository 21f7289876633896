import GroupedLedger.Cli.Arguments

namespace GroupedLedger.Cli

def programName : String := "block-exec"

def version : String := "0.1.0"

def versionLine : String := programName ++ " " ++ version

def usageLine : String := "Usage: " ++ programName ++ " [OPTIONS]"

def GrouperKind.help : GrouperKind → String
  | .resource => "Union of touched balance keys; never conflicts"
  | .sender => "One group per sender; conflicts on shared recipients"
  | .serial => "Everything serial"

def optionLine (short : Option Char) (shown : String) : String :=
  match short with
  | some c => "  -" ++ c.toString ++ ", " ++ shown
  | none => "      " ++ shown

def indent : String := "          "

def Opt.briefHelp (opt : Opt) : List String :=
  let default := (opt.default?.map fun value => " [default: " ++ value ++ "]").getD ""
  let values :=
    if opt = .grouper then
      " [possible values: " ++ ", ".intercalate (GrouperKind.all.map GrouperKind.word) ++ "]"
    else ""
  [optionLine opt.short? opt.shown, indent ++ opt.help ++ default ++ values]

def Opt.longHelp (opt : Opt) : List String :=
  let values :=
    if opt = .grouper then
      ["", indent ++ "Possible values:"] ++ GrouperKind.all.map fun kind =>
        indent ++ "- " ++ (kind.word ++ ":").pushn ' ' (9 - kind.word.length) ++ kind.help
    else []
  let default := (opt.default?.map fun value =>
    [indent, indent ++ "[default: " ++ value ++ "]"]).getD []
  [optionLine opt.short? opt.shown, indent ++ opt.help] ++ values ++ default ++ [""]

/-- The help text, brief or at length. -/
def helpLines (long : Bool) : List String :=
  ["Grouped block execution benchmark", "", usageLine, "", "Options:"] ++
    if long then
      Opt.all.flatMap Opt.longHelp ++
        [optionLine (some 'h') "--help", indent ++ "Print help (see a summary with '-h')", "",
          optionLine (some 'V') "--version", indent ++ "Print version"]
    else
      Opt.all.flatMap Opt.briefHelp ++
        [optionLine (some 'h') "--help", indent ++ "Print help (see more with '--help')",
          optionLine (some 'V') "--version", indent ++ "Print version"]

end GroupedLedger.Cli
