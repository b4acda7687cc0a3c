import TrnComputer.Assembly.Assemble
import TrnComputer.CommandLine.Presentation
import TrnComputer.Image

/-! # Converting files

* `Conversion.assembleFile`: from source text to an image.
* `Conversion.disassembleFile`: from an image to a listing.
-/

namespace TrnComputer
set_option autoImplicit false

namespace Conversion

/-- Assembles a file. Without a name for the image, it is that of the source with another
extension. -/
def assembleFile (source : String) (output : Option String) : Script Nat := do
  let target := output.getD (Path.withExtension source "mif")
  Script.printLine s!"📝 Assembling: {source} → {target}"
  .readFile source fun
    | .error fault =>
      .complain (Presentation.failure s!"Failed to read file: {fault.message}")
        (.done failureStatus)
    | .ok text =>
      match assemble text with
      | .error e =>
        .complain (Presentation.failure s!"Assembly error: {e.message}") (.done failureStatus)
      | .ok memory =>
        .print s!"✓ Assembled {Text.decimal memory.size} cells\n" <|
          .writeFile target (Image.render memory) fun
            | .error fault =>
              let e := Image.saveError memory fault
              .complain (Presentation.failure s!"Failed to save image: {e.message}")
                (.done failureStatus)
            | .ok () => .print s!"✓ Saved to {target}\n" (.done 0)

def disassembleFile (image : String) : Script Nat := do
  Presentation.lines [s!"📖 Disassembling: {image}", ""]
  .readFile image fun answer =>
    match Image.ofFile answer with
    | .error e =>
      .complain (Presentation.failure s!"Failed to load image: {e.message}")
        (.done failureStatus)
    | .ok memory => .print (Disassembly.listing memory ++ "\n") (.done 0)

end Conversion

end TrnComputer
