import Codex.Text.Lines

/-!
# Patches

The data model of `apply-patch/src/parser.rs`: hunks, the chunks of an update
hunk, the parse errors and the markers of the patch format. A `PathBuf` is the
text it was built from.
-/

namespace Codex.ApplyPatch

open Codex.Text

def beginPatchMarker : Str := "*** Begin Patch".toList
def endPatchMarker : Str := "*** End Patch".toList
def addFileMarker : Str := "*** Add File: ".toList
def deleteFileMarker : Str := "*** Delete File: ".toList
def updateFileMarker : Str := "*** Update File: ".toList
def moveToMarker : Str := "*** Move to: ".toList
def eofMarker : Str := "*** End of File".toList
def changeContextMarker : Str := "@@ ".toList
def emptyChangeContextMarker : Str := "@@".toList
def environmentIdMarker : Str := "*** Environment ID:".toList

inductive ParseError where
  | invalidPatchError (message : Str)
  | invalidHunkError (message : Str) (lineNumber : Nat)
  deriving DecidableEq

structure UpdateFileChunk where
  changeContext : Option Str
  oldLines : List Str
  newLines : List Str
  /-- The old lines must occur at the end of the source file. -/
  isEndOfFile : Bool
  deriving DecidableEq

inductive Hunk where
  | addFile (path contents : Str)
  | deleteFile (path : Str)
  | updateFile (path : Str) (movePath : Option Str) (chunks : List UpdateFileChunk)
  deriving DecidableEq

/-- The path the hunk reads or removes: the source of a rename. -/
def Hunk.sourcePath : Hunk → Str
  | .addFile path _ => path
  | .deleteFile path => path
  | .updateFile path _ _ => path

/-- The path affected by the hunk, the move destination for a rename. -/
def Hunk.path : Hunk → Str
  | .addFile path _ => path
  | .deleteFile path => path
  | .updateFile _ (some path) _ => path
  | .updateFile path none _ => path

def Hunk.movePath : Hunk → Option Str
  | .updateFile _ movePath _ => movePath
  | _ => none

structure ApplyPatchArgs where
  patch : Str
  hunks : List Hunk
  workdir : Option Str
  environmentId : Option Str
  deriving DecidableEq

/-! ## Markers as characters -/

theorem beginPatchMarker_eq : beginPatchMarker =
    ['*', '*', '*', ' ', 'B', 'e', 'g', 'i', 'n', ' ', 'P', 'a', 't', 'c', 'h'] := rfl

theorem endPatchMarker_eq : endPatchMarker =
    ['*', '*', '*', ' ', 'E', 'n', 'd', ' ', 'P', 'a', 't', 'c', 'h'] := rfl

theorem addFileMarker_eq : addFileMarker =
    ['*', '*', '*', ' ', 'A', 'd', 'd', ' ', 'F', 'i', 'l', 'e', ':', ' '] := rfl

theorem deleteFileMarker_eq : deleteFileMarker =
    ['*', '*', '*', ' ', 'D', 'e', 'l', 'e', 't', 'e', ' ', 'F', 'i', 'l', 'e', ':', ' '] := rfl

theorem updateFileMarker_eq : updateFileMarker =
    ['*', '*', '*', ' ', 'U', 'p', 'd', 'a', 't', 'e', ' ', 'F', 'i', 'l', 'e', ':', ' '] := rfl

theorem moveToMarker_eq : moveToMarker =
    ['*', '*', '*', ' ', 'M', 'o', 'v', 'e', ' ', 't', 'o', ':', ' '] := rfl

theorem eofMarker_eq : eofMarker =
    ['*', '*', '*', ' ', 'E', 'n', 'd', ' ', 'o', 'f', ' ', 'F', 'i', 'l', 'e'] := rfl

theorem changeContextMarker_eq : changeContextMarker = ['@', '@', ' '] := rfl

theorem emptyChangeContextMarker_eq : emptyChangeContextMarker = ['@', '@'] := rfl

theorem environmentIdMarker_eq : environmentIdMarker =
    ['*', '*', '*', ' ', 'E', 'n', 'v', 'i', 'r', 'o', 'n', 'm', 'e', 'n', 't', ' ', 'I', 'D',
     ':'] := rfl

end Codex.ApplyPatch
