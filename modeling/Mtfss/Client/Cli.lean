import Mathlib.Data.List.DropRight
import Mtfss.Client.Client

/-! The command line of the client. -/

namespace Mtfss

open Effects

structure Cli where
  client : Client
  running : Bool
  deriving DecidableEq

namespace Cli

def space : Byte := 0x20
def tab : Byte := 0x09
def newline : Byte := 0x0A
def verticalTab : Byte := 0x0B
def formFeed : Byte := 0x0C
def carriageReturn : Byte := 0x0D

/-- `isspace` -/
def isSpace (b : Byte) : Bool :=
  b = space || b = tab || b = newline || b = verticalTab || b = formFeed || b = carriageReturn

/-- `::tolower` -/
def toLower (b : Byte) : Byte := if 0x41 ≤ b ∧ b ≤ 0x5A then b + 0x20 else b

/-- `" \t\r\n"` -/
def isTrimmed (b : Byte) : Bool := b = space || b = tab || b = carriageReturn || b = newline

/-- `" \t"` -/
def isBlank (b : Byte) : Bool := b = space || b = tab

/-- What `process_command` does with a line: it calls a method or prints a text. -/
inductive Command
  | help
  | login (username : Bytes)
  | list
  | upload (filepath : Bytes)
  | download (filename : Bytes)
  | delete (filename : Bytes)
  | rename (oldName newName : Bytes)
  | quit
  | usage (text : Bytes)
  | unknown (command : Bytes)
  deriving DecidableEq

/-- `iss >> command`, in lower case -/
def command (line : Bytes) : Bytes :=
  ((line.dropWhile isSpace).takeWhile (fun b => !isSpace b)).map toLower

/-- `std::getline(iss >> std::ws, argument)`, after `iss >> command` -/
def argument (line : Bytes) : Bytes :=
  (((line.dropWhile isSpace).dropWhile (fun b => !isSpace b)).dropWhile isSpace).takeWhile
    (fun b => b ≠ newline)

def withName (usage : Bytes) (call : Bytes → Command) (argument : Bytes) : Command :=
  if argument = [] then .usage usage else call argument

def login : Bytes → Command := withName (bytes "Usage: login <username>\n") .login
def upload : Bytes → Command := withName (bytes "Usage: upload <filepath>\n") .upload
def download : Bytes → Command := withName (bytes "Usage: download <filename>\n") .download
def delete : Bytes → Command := withName (bytes "Usage: delete <filename>\n") .delete

def renameUsage : Command := .usage (bytes "Usage: rename <old> <new>\n")

def skipBlank (s : Bytes) : Bytes := if s.all isBlank then s else s.dropWhile isBlank

def rename (argument : Bytes) : Command :=
  if space ∈ argument then
    let oldName := argument.takeWhile (fun b => b ≠ space)
    let newName := skipBlank ((argument.dropWhile (fun b => b ≠ space)).drop 1)
    if oldName = [] ∨ newName = [] then renameUsage else .rename oldName newName
  else renameUsage

/-- The choice that `process_command` makes -/
def choose (command argument : Bytes) : Command :=
  if command = bytes "help" then .help
  else if command = bytes "login" then login argument
  else if command = bytes "list" ∨ command = bytes "ls" then .list
  else if command = bytes "upload" then upload argument
  else if command = bytes "download" then download argument
  else if command = bytes "delete" ∨ command = bytes "rm" then delete argument
  else if command = bytes "rename" ∨ command = bytes "mv" then rename argument
  else if command = bytes "quit" ∨ command = bytes "exit" then .quit
  else .unknown command

def parse (line : Bytes) : Command := choose (command line) (argument line)

def helpText : Bytes :=
  bytes "\nAvailable commands:\n" ++
  bytes "  login <username>    - Set your username (required first)\n" ++
  bytes "  list / ls           - List your files\n" ++
  bytes "  upload <filepath>   - Upload a file\n" ++
  bytes "  download <filename> - Download a file\n" ++
  bytes "  delete <filename>   - Delete a file\n" ++
  bytes "  rename <old> <new>  - Rename a file\n" ++
  bytes "  quit / exit         - Disconnect and exit\n" ++
  bytes "\n"

def call (method : Client.Method) : Cli → Code Cli := fun cli => do
  let (_, client) ← method cli.client
  pure { cli with client := client }

def print (text : Bytes) : Cli → Code Cli := fun cli => do
  Sys.print text
  pure cli

def perform (host : Endian) : Command → Cli → Code Cli
  | .help => print helpText
  | .login username => call (Client.login host username)
  | .list => call (Client.listFiles host)
  | .upload filepath => call (Client.uploadFile host filepath)
  | .download filename => call (Client.downloadFile host filename)
  | .delete filename => call (Client.deleteFile host filename)
  | .rename oldName newName => call (Client.renameFile host oldName newName)
  | .quit => fun cli => do
    let cli' ← call (Client.quit host) cli
    pure { cli' with running := false }
  | .usage text => print text
  | .unknown command =>
    print (bytes "Unknown command: " ++ command ++ bytes "\n" ++
      bytes "Type 'help' for available commands.\n")

def processCommand (host : Endian) (line : Bytes) : Cli → Code Cli :=
  perform host (parse line)

/-- `run` takes the blank space off both ends of a line. -/
def trim (line : Bytes) : Bytes := (line.dropWhile isTrimmed).rdropWhile isTrimmed

/-- The loop of `run`, on what is left of the lines of `std::cin`. -/
def loop (host : Endian) : List Bytes → Cli → Code Cli
  | [], cli =>
    if cli.running && cli.client.connected then print (bytes "mtfss> ") cli else pure cli
  | line :: lines, cli =>
    if cli.running && cli.client.connected then do
      Sys.print (bytes "mtfss> ")
      if trim line = [] then loop host lines cli
      else
        let cli' ← processCommand host (trim line) cli
        loop host lines cli'
    else pure cli

def run (host : Endian) (lines : List Bytes) (client : Client) : Code Cli := do
  Sys.print (bytes "\n=== MTFSS Client ===\n")
  Sys.print (bytes "Type 'help' for available commands.\n\n")
  loop host lines ⟨client, true⟩

end Cli

end Mtfss
