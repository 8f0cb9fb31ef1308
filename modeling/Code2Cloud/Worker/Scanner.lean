import Code2Cloud.Worker.GoString

/-!
# Scanning lines

`bufio.ScanLines` over the bytes of one write, and the characters of a Go string.
-/

namespace Code2Cloud
namespace Worker

namespace GoString

/-- A Go string in a JSON text. -/
def text (s : GoString) : String := String.ofList (runes 0 s)

end GoString

namespace Scanner

def newline : UInt8 := 0x0a

def carriageReturn : UInt8 := 0x0d

/-- `bufio.MaxScanTokenSize`: a buffer of this many bytes without a newline is `ErrTooLong`. -/
def maxScanTokenSize : Nat := 64 * 1024

/-- The text up to each newline, and what stands behind the last one if there is anything. -/
def linesFrom (current : GoString) : GoString → List GoString
  | [] => if current = [] then [] else [current]
  | c :: p => if c = newline then current :: linesFrom [] p else linesFrom (current ++ [c]) p

def dropCR (line : GoString) : GoString := GoString.trimSuffix line [carriageReturn]

/-- The tokens of a scanner with `ScanLines`.  A line that is too long ends the scan. -/
def scanLines (p : GoString) : List GoString :=
  ((linesFrom [] p).takeWhile fun line => line.length < maxScanTokenSize).map dropCR

/-- The lines that `StreamLogger.Write` accepts. -/
def acceptedLines (p : GoString) : List GoString := (scanLines p).filter fun line => line ≠ []

end Scanner
end Worker
end Code2Cloud
