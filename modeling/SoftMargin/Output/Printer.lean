import SoftMargin.Text.Utf8

/-!
# Where printed text goes

Text is printed to the standard output, a file, a buffer, a stream, or nowhere.
What has been printed is kept, as bytes, for as long as it can be asked for.
-/

namespace SoftMargin

inductive PrintTarget where
  | stdout
  | file
  | buffer
  | stream
  | sink
deriving Repr, DecidableEq

def PrintTarget.name : PrintTarget → String
  | .stdout => "Stdout"
  | .file => "File"
  | .buffer => "Buffer"
  | .stream => "Stream"
  | .sink => "Sink"

inductive StreamItem where
  | bytes (bytes : List UInt8)
  | flush
deriving Repr, DecidableEq

/-- Only a buffer gives back what was printed. -/
inductive PrintError where
  | notBuffered
deriving Repr, DecidableEq

def PrintError.message : PrintError → String
  | .notBuffered => "Print buffering is not configured."

/-- The target, what the latest buffer and the latest file hold, and all that the stream has
received. Buffer and file list their chunks latest first, and so does the stream. -/
structure Printer where
  target : PrintTarget
  buffer : List (List UInt8)
  file : List (List UInt8)
  stream : List StreamItem
deriving Repr

namespace Printer

def initial : Printer :=
  ⟨.stdout, [], [], []⟩

/-- Redirects the output. Buffers and files start out empty. -/
def redirect (p : Printer) : PrintTarget → Printer
  | .buffer => { p with target := .buffer, buffer := [] }
  | .file => { p with target := .file, file := [] }
  | target => { p with target }

def write (p : Printer) (bytes : List UInt8) : Printer :=
  match p.target with
  | .buffer => { p with buffer := bytes :: p.buffer }
  | .file => { p with file := bytes :: p.file }
  | .stream => { p with stream := .bytes bytes :: p.stream }
  | .stdout => p
  | .sink => p

def print (p : Printer) (text : String) : Printer :=
  p.write text.toUTF8.toList

/-- Only a stream takes note. -/
def flush (p : Printer) : Printer :=
  match p.target with
  | .stream => { p with stream := .flush :: p.stream }
  | _ => p

def bufferText (p : Printer) : Except PrintError String :=
  match p.target with
  | .buffer => .ok (Utf8.lossyText p.buffer.reverse.flatten)
  | _ => .error .notBuffered

def fileText (p : Printer) : String :=
  Utf8.lossyText p.file.reverse.flatten

def streamItems (p : Printer) : List StreamItem :=
  p.stream.reverse

end Printer
end SoftMargin
