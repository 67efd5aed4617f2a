import CMinusMinus.Text.Alphanumeric

/-!
Arguments of a command line, in the usual manner: options start with a dash, a long option may be
cut short as long as it is clear and takes its value after an equals sign or from the next argument,
short options may be written together, and two dashes end the options.
-/
namespace CMinusMinus.Command

/-- The options that commands know. -/
inductive Flag where
  | help | verbose | rich | noComments | output | includeEnd
deriving DecidableEq, Repr

def Flag.takesValue : Flag → Bool
  | output => true
  | _ => false

abbrev Flags := List (String × Flag)

/-- An argument: a plain word, the two dashes, options that stand together in it (the last one
possibly with its value), an option that nobody knows, one that is wrong in itself, or one that could
be several. -/
inductive Argument where
  | word (text : String)
  | dashes
  | options (flags : List (Flag × Option String))
  | unknown
  | refused
  | ambiguous
deriving DecidableEq, Repr

/-- Whether a text is a negative number, which is a plain word though it starts with a dash. -/
def isNegativeNumber (cs : List Char) : Bool :=
  match cs with
  | '-' :: rest =>
    let rest := if rest.getLast? = some '\n' then rest.dropLast else rest
    let after := rest.dropWhile Text.isDecimal
    match after with
    | [] => !rest.isEmpty
    | '.' :: fraction => !fraction.isEmpty && fraction.all Text.isDecimal
    | _ => false
  | _ => false

/-- The short options in the text attached to one. An option with a value takes all of the rest as
its value; to the others nothing can be attached but more options. -/
def attached (flags : Flags) (flag : Flag) : List Char → Option (List (Flag × Option String))
  | [] => some [(flag, none)]
  | c :: rest =>
    if flag.takesValue then some [(flag, some (String.ofList (c :: rest)))]
    else match flags.lookup (String.ofList ['-', c]) with
      | none => none
      | some next => (attached flags next rest).map ((flag, none) :: ·)

def assigned (flags : Flags) (name : String) (flag : Flag) (value : List Char) : Argument :=
  if flag.takesValue then .options [(flag, some (String.ofList value))]
  else if name.toList.take 2 = ['-', '-'] || value.isEmpty then .refused
  else match attached flags flag value with
    | some all => .options all
    | none => .refused

/-- An argument that starts with a dash and is no option by its full name: a long option cut short,
or short options together. -/
def abbreviated (flags : Flags) (text : String) : Argument :=
  let cs := text.toList
  let name := cs.takeWhile (· ≠ '=')
  let value := (cs.drop name.length).tail?
  if cs.take 2 = ['-', '-'] then
    match flags.filter fun (n, _) => name.isPrefixOf n.toList with
    | [] => fallback cs
    | [(n, flag)] =>
      match value with
      | none => .options [(flag, none)]
      | some value => assigned flags n flag value
    | _ => .ambiguous
  else
    match flags.lookup (String.ofList (cs.take 2)) with
    | none => fallback cs
    | some flag =>
      match attached flags flag (cs.drop 2) with
      | some all => .options all
      | none => .refused
where
  /-- What an argument is that no option explains. -/
  fallback (cs : List Char) : Argument :=
    if isNegativeNumber cs || cs.contains ' ' then .word text else .unknown

def Argument.ofText (flags : Flags) (text : String) : Argument :=
  match text.toList with
  | '-' :: _ :: _ =>
    match flags.lookup text with
    | some flag => .options [(flag, none)]
    | none =>
      let name := String.ofList (text.toList.takeWhile (· ≠ '='))
      match flags.lookup name, (text.toList.drop name.length).tail? with
      | some flag, some value => assigned flags name flag value
      | _, _ => abbreviated flags text
  | _ => .word text

/-- What the arguments are; after two dashes all are words. -/
def arguments (flags : Flags) : List String → List Argument
  | [] => []
  | text :: rest =>
    if text = "--" then .dashes :: rest.map .word
    else .ofText flags text :: arguments flags rest

end CMinusMinus.Command
