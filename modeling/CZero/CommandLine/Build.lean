import CZero.CommandLine.Options
import CZero.CommandLine.Path

/-!
# Building a file

A build reads a source, compiles it and writes the image. Either end may fail outside of the compiler,
and a compile error is reported against the path of the source. How files are read and written is left
open.
-/

namespace CZero

/-- Why a build failed. -/
inductive BuildError where
  /-- The file cannot be read or written. -/
  | file (path : String)
  | compile (path : String) (d : Diagnostic)
deriving DecidableEq

/-- What is said about a failed build. -/
def BuildError.message : BuildError → String
  | .file path => path ++ ": cannot be read or written"
  | .compile path d => path ++ ":" ++ d.message

/-- The path of a source that is no file. -/
def unnamedSource : String := "<source>"

/-- The extension of images. -/
def imageExtension : String := "o0"

/-- Compiles a source that was read from `path`. -/
def Listings.compileFrom (l : Listings) (path source : String) : Except BuildError Product :=
  (l.compile source).mapError (.compile path)

/-- Access to files by their paths. -/
structure Files (m : Type → Type) where
  /-- The content of a file, if it can be read. -/
  read? : String → m (Option (List UInt8))
  /-- Writes a file. The result tells whether that worked. -/
  write : String → List UInt8 → m Bool

/-- A finished build: its report, and where the image was written. -/
structure Built where
  report : String
  written : Option String
deriving DecidableEq

namespace Options

/-- Where the image is written. -/
def outputPath (o : Options) : String :=
  o.output.getD (Path.withExtension o.input imageExtension)

/-- Reads the source and compiles it. -/
def compileContent (o : Options) (content : Option (List UInt8)) : Except BuildError Product :=
  match content.bind fun bytes => String.fromUTF8? ⟨bytes.toArray⟩ with
  | some source => o.listings.compileFrom o.input source
  | none => .error (.file o.input)

/-- Builds the input. -/
def build {m : Type → Type} [Monad m] (files : Files m) (o : Options) : m (Except BuildError Built) := do
  match o.compileContent (← files.read? o.input) with
  | .error e => return .error e
  | .ok product =>
    match product.image with
    | none => return .ok ⟨product.report, none⟩
    | some image =>
      if ← files.write o.outputPath image.toBytes then
        return .ok ⟨product.report, some o.outputPath⟩
      else return .error (.file o.outputPath)

end Options

end CZero
